import McdocSchema.Bench
import McdocSchema.Json.Printer
import McdocSchema.Value.Fingerprint

/-!
# Self-checks

A bench should give back something that depends on the measured code alone: the same for the same
parameters, another thing for others. A self-check collects what is needed to tell: the fingerprints
of the results of two runs and of a run for every parameter, and the time spent in the measured code.
-/

namespace McdocSchema

open Number (Binary64)

/-- What a self-check finds out about a bench. -/
structure SelfCheck where
  /-- The sort of the result, or the class of an exception in angle brackets. -/
  sort : String := ""
  /-- The fingerprints of the results of the runs without parameters. -/
  stable : List String := []
  /-- The fingerprint of the result for every parameter. -/
  byParam : Fields String := []
  /-- The time in the measured code in thousandths of a second. -/
  millis : Fields Binary64 := []
  /-- The share of the measured code. -/
  measured : Fields Binary64 := []
  /-- The share of compiled code. -/
  compiled : Fields Binary64 := []
  /-- The fingerprints of the parameters. -/
  paramPrints : List String := []

namespace SelfCheck

mutual

/-- The value of a parameter. -/
def valueOf : Json → Value
  | .null => .none
  | .bool b => .bool b
  | .int n => .int n
  | .real x => .real x
  | .string s => .text s
  | .array items => .list (valuesOf items)
  | .object fields => .dict (entriesOf fields)

/-- The values of items. -/
def valuesOf : List Json → List Value
  | [] => []
  | item :: items => valueOf item :: valuesOf items

/-- The entries of fields. -/
def entriesOf : List (String × Json) → List (Value × Value)
  | [] => []
  | (key, value) :: fields => (.text key, valueOf value) :: entriesOf fields

end

/-- The label of the run without parameters. -/
def defaultLabel : String := "<default>"

def labelOf (param : Fields Json) : String :=
  ",".intercalate (param.map fun (name, value) => name ++ "=" ++ value.display)

/-- The share of a time in the whole, with three places. -/
def share (time total : Binary64) : Binary64 :=
  if (0 : Binary64).lt total then (time / total).roundPlaces 3 else 0

/-- Notes the profile of a run under a label. -/
def noteProfile (site : Site) (bench : Bench) (label : String) (check : SelfCheck) : SelfCheck :=
  let measured := totalTime (bench.frames.filter fun f => site.isMeasured f.path)
  let compiled := totalTime (bench.frames.filter fun f =>
    !site.isMeasured f.path && Site.isCompiled f.path)
  { check with
    millis := check.millis.set label ((measured * 1000).roundPlaces 3)
    measured := check.measured.set label (share measured bench.total)
    compiled := check.compiled.set label (share compiled bench.total) }

/-- Notes that a run failed. -/
def noteFailure (sort : String) (check : SelfCheck) : SelfCheck :=
  { check with sort := "<" ++ sort ++ ">" }

/-- Notes what a run gives, or that it failed, after which nothing more is run. -/
def noteCall (call : Call) (note : Value → SelfCheck → SelfCheck) (check : SelfCheck) :
    SelfCheck × Bool :=
  match call with
  | .gives value => (note value check, true)
  | .raises raised => (noteFailure raised.sort check, false)
  | .expires => (noteFailure "timeout" check, false)

/-- Notes the runs with parameters; `number` is that of the first one. -/
def noteParams (site : Site) (bench : Bench) (number : Nat) :
    List (Fields Json) → SelfCheck → SelfCheck
  | [], check => check
  | param :: params, check =>
    let label := labelOf param
    match noteCall (bench.call number) (fun value check =>
      noteProfile site bench label
        { check with byParam := check.byParam.set label value.fingerprint }) check with
    | (check, true) => noteParams site bench (number + 1) params check
    | (check, false) => check

/-- The self-check of a bench: a plain run, a profiled one, and one for every parameter. -/
def ofBench (site : Site) (bench : Bench) : SelfCheck :=
  let start : SelfCheck :=
    { paramPrints := bench.params.flatMap fun param =>
        param.map fun (_, value) => (valueOf value).fingerprint }
  let plain := noteCall (bench.call 0) (fun value check =>
    { check with sort := value.sortName, stable := [value.fingerprint] }) start
  match plain with
  | (check, false) => check
  | (check, true) =>
    let profiled := noteCall (bench.call 1) (fun value check =>
      noteProfile site bench defaultLabel
        { check with stable := check.stable ++ [value.fingerprint] }) check
    match profiled with
    | (check, false) => check
    | (check, true) => noteParams site bench 2 bench.params check

def toJson (check : SelfCheck) : Json :=
  let reals (fields : Fields Binary64) : Json := .object (fields.map fun (k, x) => (k, .real x))
  .object [("ret_type", .string check.sort), ("fp_stable", .strings check.stable),
    ("fp_by_param", .object (check.byParam.map fun (k, s) => (k, .string s))),
    ("repo_tt_ms", reals check.millis), ("repo_frac", reals check.measured),
    ("ext_frac", reals check.compiled), ("param_fps", .strings check.paramPrints)]

/-- The self-checks of all benches of a module. -/
def report (site : Site) : BenchModule → ScriptEnd
  | .broken raised =>
    ⟨(Json.object [("_import_error", .string raised.report)]).compact ++ "\n", some 0⟩
  | .loaded benches =>
    let checks := (benchesIn benches).map fun b => (b.name, (ofBench site b).toJson)
    ⟨(Json.object [("semcheck", .object checks)]).compact ++ "\n", none⟩

end SelfCheck

end McdocSchema
