import McdocSchema.Round.Fault

/-!
# The table of coverage

A row for every file, the least covered first, with the lines that were not reached; then the totals.
-/

namespace McdocSchema.Round

open Number (Binary64)

/-- A row of the table. -/
structure CoverageRow where
  name : String
  statements : Int
  missed : Int
  percent : Binary64
  /-- The lines that were not reached, as they are shown. -/
  lines : List String

/-- What a round needs of a coverage report. -/
structure CoverageTable where
  percent : Binary64
  covered : Int
  statements : Int
  /-- The number of benches that failed. -/
  failures : Nat
  rows : List CoverageRow

namespace CoverageTable

/-- The row of a file. -/
def rowOf (name : String) (entry : Json) : Except Fault CoverageRow := do
  let fields ← fieldsOf entry
  let summary ← fieldsIn "summary" fields
  let lines := ((fieldOf "missing_lines" fields).items?.getD []).map Json.display
  return ⟨name, ← intIn "num_statements" summary, ← intIn "missing_lines" summary,
    ← realIn "percent_covered" summary, lines⟩

/-- The number of failed benches that a report notes. -/
def failuresIn (details : Fields Json) : Nat :=
  match fieldOf "_pti_bench_errors" details with
  | .object fields => fields.length
  | .array items => items.length
  | _ => 0

def ofReport (report : Json) : Except Fault CoverageTable := do
  let fields ← fieldsOf report
  let totals ← fieldsIn "totals" fields
  let percent ← realIn "percent_covered" totals
  let covered ← intIn "covered_lines" totals
  let statements ← intIn "num_statements" totals
  let details ← fieldsIn "meta" fields
  let files ← fieldsIn "files" fields
  let rows ← files.mapM fun (name, entry) => rowOf name entry
  return ⟨percent, covered, statements, failuresIn details,
    rows.mergeSort fun a b => !b.percent.lt a.percent⟩

/-- The number of lines that are shown of those that were not reached. -/
def shownLines : Nat := 12

/-- The lines that were not reached, the first of them if there are many. -/
def linesText (lines : List String) : String :=
  ",".intercalate (lines.take shownLines) ++ (if shownLines < lines.length then "…" else "")

/-- The numbers of a row. -/
def numbersText (statements missed : Int) (percent : Binary64) : String :=
  padLeft 7 (Number.intText statements) ++ padLeft 6 (Number.intText missed)
    ++ padLeft 7 (percent.toFixed 0 ++ "%")

def lines (table : CoverageTable) : List String :=
  let width := table.rows.foldl (fun w row => max w row.name.length) 4
  let rule := String.ofList (List.replicate (width + 42) '-')
  [padRight width "Name" ++ "  Stmts  Miss  Cover  Missing", rule]
    ++ table.rows.map (fun row =>
      padRight width row.name ++ numbersText row.statements row.missed row.percent ++ "  "
        ++ linesText row.lines)
    ++ [rule, padRight width "TOTAL"
      ++ numbersText table.statements (table.statements - table.covered) table.percent, ""]

end CoverageTable

end McdocSchema.Round
