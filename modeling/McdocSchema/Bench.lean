import McdocSchema.Json.Display
import McdocSchema.Profile.Frame
import McdocSchema.Value

/-!
# Benches

A bench is a function whose run is measured. What its calls give and what a profile of a run shows is
part of it, so that what is computed from a measurement is a function of the benches.
-/

namespace McdocSchema

open Number (Binary64)

/-- An exception: its class, and what it was raised with. -/
structure Raised where
  sort : String
  arguments : List Json

namespace Raised

/-- The message: the only argument, or all of them in brackets. A missing key is quoted. -/
def message (r : Raised) : String :=
  match r.arguments with
  | [] => ""
  | [argument] => if r.sort == "KeyError" then argument.displayInner else argument.display
  | arguments => "(" ++ ", ".intercalate (arguments.map Json.displayInner) ++ ")"

/-- The class with the message. -/
def report (r : Raised) : String := r.sort ++ ": " ++ r.message

end Raised

inductive Call
  | gives (value : Value)
  | raises (raised : Raised)
  /-- The time for the call is used up. -/
  | expires

structure Bench where
  name : String
  /-- Whether the name stands for a constant, which is no bench at all. -/
  constant : Bool := false
  /-- What the calls give one after the other; the last one is repeated. -/
  calls : List Call := []
  /-- The arguments of the calls with parameters. -/
  params : List (Fields Json) := []
  /-- The profile of a run. -/
  frames : List Frame := []
  /-- The time of a run. -/
  total : Binary64 := 0

def Bench.call (bench : Bench) (number : Nat) : Call :=
  (bench.calls[number]?).getD (bench.calls.getLastD (.gives .none))

/-- A module of benches: it may fail to load. -/
inductive BenchModule
  | broken (raised : Raised)
  | loaded (benches : List Bench)

/-- How names of benches start. -/
def benchMark : String := "bench_"

/-- The benches of a list in the order of their names. -/
def benchesIn (benches : List Bench) : List Bench :=
  (benches.filter fun b => !b.constant && b.name.startsWith benchMark).mergeSort
    fun a b => a.name ≤ b.name

/-- What a script leaves: the text it printed, and its exit code if it has set one. -/
structure ScriptEnd where
  printed : String
  exit : Option Nat := none
  deriving DecidableEq, Repr

end McdocSchema
