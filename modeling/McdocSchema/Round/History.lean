import McdocSchema.Round.Fault
import McdocSchema.Text.Blank

/-!
# The history of rounds

Every round leaves a line in the checkpoint file. From the numbers of benches below the limit in all
rounds follows when to stop: when there are none, and when the least number was reached long ago.
-/

namespace McdocSchema.Round

open Number (Binary64)

/-- What earlier rounds left. -/
structure History where
  /-- The number of earlier rounds. -/
  rounds : Nat := 0
  /-- When the last round was, if that is known. -/
  previous : Option Binary64 := none
  /-- The numbers of benches below the limit in the rounds that know it. -/
  below : List Int := []

namespace History

/-- The lines of a text that are not blank. -/
def entriesOf (text : String) : List String :=
  (text.splitOn "\n").filter fun line => line.toList.any fun c => !Text.isBlank c

/-- What a line of the checkpoint file tells: the time of the round and its number of benches below
the limit. -/
def entryOf (line : String) : Except Fault (Option Binary64 × Option Int) := do
  let fields ← fieldsOf (← parse line)
  let _ ← realIn "coverage_pct" fields
  let time := fieldOf "ts" fields
  let previous ← if isNothing time then pure none else some <$> realOf time
  let below := match fieldOf "n_below_repo_time" fields with
    | .int n => some n
    | .bool b => some (if b then 1 else 0)
    | _ => none
  return (previous, below)

/-- The history in the text of a checkpoint file. -/
def ofText (text : String) : Except Fault History := do
  let entries ← (entriesOf text).mapM entryOf
  return ⟨entries.length, (entries.getLast?).bind (·.1), entries.filterMap (·.2)⟩

/-! ## When to stop -/

/-- The least number so far, and how many numbers came after its first appearance. -/
structure Plateau where
  best : Int
  since : Nat
  deriving DecidableEq, Repr

/-- The plateau after one more number. -/
def Plateau.next (p : Plateau) (n : Int) : Plateau :=
  if n < p.best then ⟨n, 0⟩ else ⟨p.best, p.since + 1⟩

/-- The plateau of numbers, of which there is at least one. -/
def plateau (first : Int) (rest : List Int) : Plateau :=
  rest.foldl Plateau.next ⟨first, 0⟩

/-- The plateau of earlier numbers and the present one. -/
def plateauWith (earlier : List Int) (present : Int) : Plateau :=
  match earlier with
  | [] => plateau present []
  | first :: rest => plateau first (rest ++ [present])

/-- The number of rounds without progress after which to stop. -/
def patience : Nat := 3

/-- The coverage from which on rounds may stop. -/
def leastCoverage : Binary64 := 60

/-- Why to stop. -/
inductive Stop
  | converged
  | noProgress (plateau : Plateau)
  deriving DecidableEq, Repr

/-- The text of a reason to stop. -/
def Stop.text : Stop → String
  | .converged => "0 below"
  | .noProgress p =>
    "no improvement in " ++ toString p.since ++ " rounds; best " ++ Number.intText p.best ++ " below"

/-- Whether and why to stop after a round with a number of benches below the limit; the number is not
known if no bench ran. -/
def stop? (coverage : Binary64) (earlier : List Int) (present : Option Nat) : Option Stop :=
  match present with
  | none => none
  | some n =>
    if coverage.lt leastCoverage then none
    else if n = 0 then some .converged
    else
      let p := plateauWith earlier n
      if patience ≤ p.since then some (.noProgress p) else none

/-- The lines that tell to stop. -/
def Stop.lines (s : Stop) : List String :=
  ["", ">>> STOP: repo_time converged (" ++ s.text ++ "). Finalize microbench.py now. <<<"]

end History

end McdocSchema.Round
