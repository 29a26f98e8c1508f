import McdocSchema.Round.Fault

/-!
# Verdicts

The verdict on a bench, from what its self-check found out. The first reason that applies is the
verdict; a bench for which none applies is good.
-/

namespace McdocSchema.Round

open Number (Binary64)

/-- A verdict on a bench. -/
inductive Verdict
  | error | returnsNone | unstable | returnsInput | lowShare | paramInvariant | codeModified | good
  deriving DecidableEq, Repr

namespace Verdict

def name : Verdict → String
  | .error => "error"
  | .returnsNone => "returns-none"
  | .unstable => "unstable"
  | .returnsInput => "returns-input"
  | .lowShare => "low-repo-time"
  | .paramInvariant => "param-invariant"
  | .codeModified => "repo-modified"
  | .good => "ok"

/-- The texts in an array. -/
def textsIn (key : String) (fields : Fields Json) : List String :=
  ((fieldOf key fields).items?.getD []).map Json.display

/-- The numbers in the fields of an object. -/
def realsIn (key : String) (fields : Fields Json) : Except Fault (List Binary64) := do
  (← fieldsIn key fields).mapM fun (_, x) => realOf x

/-- The mean of some numbers; zero if there are none. -/
def mean (xs : List Binary64) : Binary64 :=
  if xs.isEmpty then 0 else xs.foldl (· + ·) 0 / Binary64.ofInt xs.length

/-- Whether all of several texts are equal. -/
def allEqual (texts : List String) : Bool :=
  match texts with
  | first :: second :: rest => (second :: rest).all (· == first)
  | _ => false

def differ (texts : List String) : Bool :=
  match texts with
  | first :: rest => rest.any (· != first)
  | [] => false

end Verdict

/-- What a round needs of a self-check. -/
structure Checked where
  sort : String
  verdict : Verdict
  share : Binary64
  millis : Binary64

namespace Checked

/-- The share of time that measured and compiled code should have at least. -/
def leastShare : Binary64 := Binary64.ofDecimal false 5 (-1)

/-- The verdict on a self-check; `modified` tells whether the measured code was changed. -/
def ofJson (modified : Bool) (check : Json) : Except Fault Checked := do
  let fields ← fieldsOf check
  let sort := (fieldOf "ret_type" fields).display
  let stable := Verdict.textsIn "fp_stable" fields
  let byParam := (← fieldsIn "fp_by_param" fields).map fun (_, x) => x.display
  let share := Verdict.mean (← Verdict.realsIn "repo_frac" fields)
  let compiled := Verdict.mean (← Verdict.realsIn "ext_frac" fields)
  let millis := Verdict.mean (← Verdict.realsIn "repo_tt_ms" fields)
  let inputs := Verdict.textsIn "param_fps" fields
  let verdict : Verdict :=
    if sort.startsWith "<" then .error
    else if sort == "NoneType" then .returnsNone
    else if Verdict.differ stable then .unstable
    else if (stable.take 1).any inputs.contains then .returnsInput
    else if (share + compiled).lt leastShare then .lowShare
    else if Verdict.allEqual byParam then .paramInvariant
    else if modified then .codeModified
    else .good
  return ⟨sort, verdict, share, millis⟩

/-- A share in whole hundredths, of its exact value. -/
def percentText (share : Binary64) : String :=
  (share.roundPlaces 2 * 100).toFixed 0 ++ "%"

/-- The line of a bench. -/
def line (name : String) (c : Checked) : String :=
  let mark := if c.verdict = .good then " " else "*"
  "  " ++ mark ++ " " ++ padRight 32 name ++ " " ++ padRight 16 c.verdict.name ++ " (" ++ c.sort
    ++ ", repo " ++ percentText c.share ++ ") " ++ c.millis.toFixed 1 ++ "ms"

/-- What to do about a verdict. -/
def advice : List String :=
  ["  returns-none: run() has no return — collect and return the call results",
    "  unstable: seed RNG in setup; avoid time/uuid/id in the return",
    "  returns-input: return repo output, not the parameter value",
    "  low-repo-time: <50% of run() time is in repo code — move glue to setup",
    "  param-invariant: return something derived from run()'s work, not setup",
    "  repo-modified: revert edits to repo files (git checkout -- <path>)"]

/-- The lines of the section on self-checks: the benches with a fault first. -/
def lines (checks : Fields Checked) : List String :=
  if checks.isEmpty then []
  else
    let (good, bad) := checks.partition fun c => c.2.verdict = .good
    ["self-check (* = fix needed):"] ++ advice ++ (bad ++ good).map (fun (name, c) => line name c)
      ++ [""]

/-- The number of benches with a fault. -/
def faulty (checks : Fields Checked) : Nat :=
  (checks.filter fun c => c.2.verdict ≠ .good).length

end Checked

end McdocSchema.Round
