import McdocSchema.Round.Fault

/-!
# The section on shares

The share of the measured code for every bench of a round, the least first. Benches below the limit
are marked, and the places where their time goes are named. A negative share stands for a bench that
failed: it is shown as zero and counts neither as good nor as bad.
-/

namespace McdocSchema.Round

open Number (Binary64)

/-- The shares of a round, and for every bench the text on where its time goes. -/
structure Shares where
  percent : Fields Binary64 := []
  hot : Fields (List (Binary64 × String)) := []

namespace Shares

/-- The share below which a bench is marked. -/
def limit : Binary64 := 45

/-- Whether a share is that of a bench that ran. -/
def isValid (x : Binary64) : Bool := !x.lt 0

/-- Whether a share is below the limit. -/
def isBelow (x : Binary64) : Bool := isValid x && x.lt limit

/-- The shares of the benches that ran. -/
def valid (shares : Shares) : List Binary64 :=
  (shares.percent.map (·.2)).filter isValid

/-- The number of benches below the limit. -/
def below (shares : Shares) : Nat :=
  (shares.valid.filter isBelow).length

/-- A place where time goes. -/
def placeOf : Json → Except Fault (Binary64 × String)
  | .array (share :: label :: _) => do return (← realOf share, label.display)
  | value => .error (.noFields value)

/-- The shares in what the profiling tool printed. -/
def ofJson (j : Json) : Except Fault Shares := do
  let fields ← fieldsOf j
  let percent ← (← fieldsIn "repo_time_pct" fields).mapM fun (name, x) => do
    return (name, ← realOf x)
  let hot ← (← fieldsIn "hot_ext" fields).mapM fun (name, places) => do
    return (name, ← (places.items?.getD []).mapM placeOf)
  return ⟨percent, hot⟩

/-- The text on where the time of a bench goes. -/
def hotText (places : List (Binary64 × String)) : String :=
  if places.isEmpty then ""
  else
    " (hot: " ++ " ".intercalate (places.map fun (x, label) => label ++ " " ++ x.toFixed 0 ++ "%")
      ++ ")"

/-- The line of a bench. -/
def line (shares : Shares) (name : String) (x : Binary64) : String :=
  let mark := if isBelow x then "*" else " "
  let shown := if isValid x then x else 0
  let tail :=
    if !isValid x then "  <error>"
    else if isBelow x then hotText ((shares.hot.get? name).getD [])
    else ""
  "  " ++ mark ++ " " ++ padRight 32 name ++ " " ++ padLeft 5 (shown.toFixed 1) ++ "%" ++ tail

/-- The lines of the section. -/
def lines (shares : Shares) : List String :=
  if shares.percent.isEmpty then []
  else
    let sorted := shares.percent.mergeSort fun a b => !b.2.lt a.2
    ["repo_time (target 50%; * = below 45%):"] ++ sorted.map (fun (name, x) => shares.line name x)
      ++ [""]

end Shares

end McdocSchema.Round
