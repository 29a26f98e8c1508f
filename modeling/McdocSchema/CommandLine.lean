import McdocSchema.Schema.Folder

/-!
# The command line

The command takes two arguments, the folder to compile and the folder for the schemas.
-/

namespace McdocSchema

/-- How a command ends. -/
inductive Ending
  | finished
  /-- The command refuses its arguments. -/
  | refused
  | failed (fault : FileFault)
  deriving DecidableEq, Repr

def Ending.exitCode : Ending → UInt8
  | .finished => 0
  | .refused => 1
  | .failed _ => 1

namespace Session

/-- How the command is called. -/
def usage : String := "Usage: python mcdoc_compiler.py <input_folder> <output_folder>"

/-- Runs the command with its arguments. -/
def runCommand (s : Session) : List String → Ending × Session
  | [input, output] =>
    let input := Path.ofString input
    if s.tree.has input.toString then
      match s.compileFolder input (Path.ofString output) with
      | (.ok (), s) => (.finished, s.print "Compilation complete!")
      | (.error fault, s) => (.failed fault, s)
    else (.refused, s.print ("Input folder " ++ input.toString ++ " does not exist"))
  | _ => (.refused, s.print usage)

end Session

end McdocSchema
