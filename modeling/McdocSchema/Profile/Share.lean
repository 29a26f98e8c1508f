import McdocSchema.Bench
import McdocSchema.Json.Printer

/-!
# The share of the measured code

For every bench the share of its time that is spent in the measured code, and the two places outside
it where most time goes.
-/

namespace McdocSchema

open Number (Binary64)

namespace Share

/-- A time that is taken for the whole if no time passed. -/
def leastTotal : Binary64 := Binary64.ofDecimal false 1 (-9)

/-- The share of a time in hundredths of the whole, with one place. -/
def percent (time total : Binary64) : Binary64 :=
  (100 * time / (if total.lt leastTotal then leastTotal else total)).roundPlaces 1

def addTime (label : String) (time : Binary64) (times : Fields Binary64) : Fields Binary64 :=
  times.set label ((times.get? label).getD 0 + time)

/-- The times outside the measured code by label. -/
def outside (site : Site) (frames : List Frame) : Fields Binary64 :=
  (frames.filter fun f => !site.isMeasured f.path).foldl
    (fun times f => addTime (site.label f.path) f.time times) []

/-- The order of places by their times, the greater first; of equal ones the later label. -/
def hotter (a b : String × Binary64) : Bool :=
  b.2.lt a.2 || (a.2.eq b.2 && b.1 ≤ a.1)

/-- The number of places that are shown. -/
def shownPlaces : Nat := 2

/-- The places outside the measured code where most time goes. -/
def hottest (site : Site) (frames : List Frame) : List (String × Binary64) :=
  (((outside site frames).filter fun p => (0 : Binary64).lt p.2).mergeSort hotter).take shownPlaces

/-- A share that stands for a bench that failed. -/
def failed : Binary64 := -1

/-- The share of the measured code in a bench, and the places outside it with their shares. -/
def ofBench (site : Site) (bench : Bench) : Binary64 × List (Binary64 × String) :=
  match bench.call 0 with
  | .raises raised => (failed, [(0, "<" ++ raised.sort ++ ">")])
  | .expires => (failed, [(0, "<TimeoutError>")])
  | .gives _ =>
    let measured := bench.frames.filter fun f => site.isMeasured f.path
    (percent (totalTime measured) bench.total,
      (hottest site bench.frames).map fun (label, time) => (percent time bench.total, label))

/-- The shares of all benches of a module. -/
def report (site : Site) : BenchModule → ScriptEnd
  | .broken raised =>
    ⟨(Json.object [("_import_error", .string raised.report)]).compact ++ "\n", some 0⟩
  | .loaded benches =>
    let shares := (benchesIn benches).map fun b => (b.name, ofBench site b)
    let places (ps : List (Binary64 × String)) : Json :=
      .array (ps.map fun (share, label) => .array [.real share, .string label])
    ⟨(Json.object [
      ("repo_time_pct", .object (shares.map fun (name, s) => (name, .real s.1))),
      ("hot_ext", .object (shares.map fun (name, s) => (name, places s.2)))]).compact ++ "\n", none⟩

end Share

end McdocSchema
