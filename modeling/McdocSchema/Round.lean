import McdocSchema.Json.Printer
import McdocSchema.Round.CoverageTable
import McdocSchema.Round.History
import McdocSchema.Round.Shares
import McdocSchema.Round.Verdict
import McdocSchema.Text.Name

/-!
# A measuring round

A round measures coverage, shares and self-checks by other programs, prints what they found, and adds
a line to the checkpoint file. A part that fails is left out, but for the coverage, without which there
is no round.
-/

namespace McdocSchema.Round

open Number (Binary64)

/-- How another program ends. -/
inductive Child
  | ended (code : Int) (out err : String)
  | raised (raised : Raised)

/-- What a round finds: the files, how the other programs end, and the clocks. -/
structure Scene where
  report : Option String := none
  benches : Option String := none
  checkpoint : Option String := none
  coverage : Child := .ended 0 "" ""
  /-- The profiling tool, if it is there. -/
  shares : Option Child := none
  /-- The self-checking tool, if it is there. -/
  checks : Option Child := none
  changes : Child := .ended 0 "" ""
  /-- The time that the measurement of coverage took. -/
  elapsed : Binary64 := 1
  now : Binary64 := 1000

/-- How a round ends. -/
inductive Ending
  | finished
  | exit (code : Int)
  | failed (fault : Fault)

/-- What a round leaves. -/
structure Result where
  out : String := ""
  err : String := ""
  ending : Ending := .finished
  commands : List (List String) := []
  checkpoint : Option String := none

/-! ## Commands -/

/-- The files that coverage leaves out. -/
def leftOut : List String :=
  ["*/microbench.py", "*/_pti_*.py", "*/setup.py", "*/conftest.py", "*/test_*.py", "*/*_test.py",
    "*/tests/*", "*/test/*", "*/__tests__/*", "*/__fixtures__/*", "*/_version.py"]

/-- The command that measures coverage. -/
def coverageCommand : List String :=
  ["python3", "/repo/_pti_cov_runner.py", "/repo", "microbench", "/repo/_pti_coverage.json",
    (Json.strings leftOut).compact]

/-- The command that measures shares. -/
def sharesCommand : List String := ["python3", "/repo/_pti_repotime.py"]

/-- The command that lists changes of the measured code. -/
def changesCommand : List String :=
  ["git", "-C", "/repo", "status", "--porcelain", "--", ".", ":!microbench.py", ":!_pti_*",
    ":!.pti_*", ":!.coverage"]

/-- The command that checks the benches. -/
def checksCommand : List String := ["python3", "/repo/_pti_semcheck.py"]

/-! ## Counting benches -/

/-- Whether a line starts the definition of a bench. -/
def startsBench (cs : List Char) : Bool :=
  let mark := "def bench_".toList
  let name := (cs.drop mark.length).takeWhile Text.isNameChar
  let rest := ((cs.drop mark.length).dropWhile Text.isNameChar).dropWhile Text.isBlank
  mark.isPrefixOf cs && !name.isEmpty && rest.head? == some '('

/-- The number of definitions of benches in a text; `atStart` tells whether a line starts here. -/
def countBenches (atStart : Bool) : List Char → Nat
  | [] => 0
  | c :: cs =>
    (if atStart && startsBench (c :: cs) then 1 else 0) + countBenches (c == '\n') cs

/-! ## Parts -/

/-- The last line that a tool printed, if it printed anything. -/
def lastLine? (out : String) : Option String :=
  let cs := Text.strip out.toList
  if cs.isEmpty then none
  else some (String.ofList (cs.reverse.takeWhile (· != '\n')).reverse)

/-- What a tool found, or nothing, and what is written to the error stream. -/
def toolResult {α : Type} (tool : String) (empty : α) (read : Json → Except Fault α) :
    Child → α × String
  | .raised r => (empty, "[" ++ tool ++ " runner: " ++ r.report ++ "]\n")
  | .ended _ out err =>
    match lastLine? out with
    | none => (empty, err)
    | some line =>
      match (parse line).bind read with
      | .ok a => (a, err)
      | .error f => (empty, err ++ "[" ++ tool ++ " runner: " ++ f.report ++ "]\n")

/-- The files of the measured code that were changed. -/
def changedFiles : Child → List String
  | .raised _ => []
  | .ended _ out _ => (History.entriesOf out).map fun line => String.ofList (line.toList.drop 3)

/-- The lines on files that were changed. -/
def changeLines (files : List String) : List String :=
  if files.isEmpty then []
  else
    ["** repo modified (" ++ toString files.length
      ++ " file(s)) — revert these; only microbench.py is yours to edit:"]
      ++ files.map ("   " ++ ·) ++ [""]

/-- The self-checks in what the checking tool printed. -/
def checksOf (modified : Bool) (j : Json) : Except Fault (Fields Checked) := do
  (← fieldsIn "semcheck" (← fieldsOf j)).mapM fun (name, check) => do
    return (name, ← Checked.ofJson modified check)

/-! ## The round -/

/-- What a round has found. -/
structure Findings where
  number : Nat
  table : CoverageTable
  benches : Nat
  shares : Shares
  checks : Fields Checked
  changed : List String

/-- The number of benches below the limit, if any bench ran. -/
def Findings.below? (f : Findings) : Option Nat :=
  if f.shares.valid.isEmpty then none else some f.shares.below

/-- The last line of a round. -/
def Findings.footer (f : Findings) (elapsed : Binary64) : String :=
  let shares :=
    if f.shares.percent.isEmpty then ""
    else
      ", " ++ toString f.shares.below ++ "/" ++ toString f.shares.valid.length
        ++ " below repo_time 45%"
  let checks :=
    if f.checks.isEmpty then ""
    else
      ", " ++ toString (Checked.faulty f.checks) ++ "/" ++ toString f.checks.length
        ++ " not self-checking"
  "[round " ++ toString f.number ++ ": " ++ toString f.benches ++ " benches, "
    ++ f.table.percent.toFixed 1 ++ "% covered" ++ shares ++ checks ++ ", measured in "
    ++ elapsed.toFixed 1 ++ "s]"

/-- The line that a round adds to the checkpoint file. -/
def Findings.entry (f : Findings) (scene : Scene) (history : History) : Json :=
  let wall := match history.previous with
    | some time => (scene.now - time).roundPlaces 2
    | none => 0
  .object [("round", .int f.number), ("ts", .real scene.now), ("wall_since_prev_s", .real wall),
    ("coverage_pct", .real f.table.percent), ("covered_lines", .int f.table.covered),
    ("num_statements", .int f.table.statements), ("n_bench_fns", .int f.benches),
    ("n_bench_errors", .int f.table.failures),
    ("cov_measure_s", .real (scene.elapsed.roundPlaces 3)),
    ("repo_time_pct", .object (f.shares.percent.map fun (name, x) => (name, .real x))),
    ("n_below_repo_time", match f.below? with
      | some n => .int n
      | none => .null),
    ("semcheck", .object (f.checks.map fun (name, c) => (name, .string c.verdict.name))),
    ("n_not_self_checking", .int (Checked.faulty f.checks))]

/-- The rest of a round once coverage was measured. -/
def report (scene : Scene) (err : String) (table : CoverageTable) : Result :=
  let (shares, sharesErr) := match scene.shares with
    | some child => toolResult "repotime" ({} : Shares) Shares.ofJson child
    | none => ({}, "")
  let changed := if scene.checks.isSome then changedFiles scene.changes else []
  let (checks, checksErr) := match scene.checks with
    | some child => toolResult "semcheck" [] (checksOf !changed.isEmpty) child
    | none => ([], "")
  let past := scene.checkpoint.getD ""
  let benches := countBenches true (scene.benches.getD "").toList
  let findings : Findings :=
    ⟨(History.entriesOf past).length + 1, table, benches, shares, checks, changed⟩
  let (checkpoint, earlier) := match History.ofText past with
    | .ok history => (some (past ++ (findings.entry scene history).compact ++ "\n"), history.below)
    | .error _ => (scene.checkpoint, [])
  let stop := match History.stop? table.percent earlier findings.below? with
    | some s => s.lines
    | none => []
  let lines := table.lines ++ shares.lines ++ changeLines changed ++ Checked.lines checks
    ++ [findings.footer scene.elapsed] ++ stop
  { out := String.join (lines.map (· ++ "\n"))
    err := err ++ sharesErr ++ checksErr
    commands := [coverageCommand] ++ (if scene.shares.isSome then [sharesCommand] else [])
      ++ (if scene.checks.isSome then [changesCommand, checksCommand] else [])
    checkpoint := checkpoint }

/-- Runs a round. -/
def run (scene : Scene) : Result :=
  let start : Result := { commands := [coverageCommand], checkpoint := scene.checkpoint }
  match scene.coverage with
  | .raised r => { start with ending := .failed (.raised r) }
  | .ended code out err =>
    match scene.report with
    | some text =>
      if code = 0 then
        match (parse text).bind CoverageTable.ofReport with
        | .error fault => { start with err := err, ending := .failed fault }
        | .ok table => report scene err table
      else failed start code out err
    | none => failed start code out err
where
  /-- The result of a round without coverage. -/
  failed (start : Result) (code : Int) (out err : String) : Result :=
    { start with
      out := "coverage measurement failed (exit " ++ Number.intText code ++ ")\n" ++ out ++ "\n"
      err := err
      ending := .exit (if code = 0 then 1 else code) }

end McdocSchema.Round
