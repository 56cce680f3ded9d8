import MifirReport.Batch.Timestamp
import MifirReport.Files.Path

/-!
# Where the output goes

The rows of a conversion go to one file, which is either given or generated in a directory: its name
is then made of the party that executed the first transaction and of the time. Diagnostics of single
inputs go to the same directory, each under the stem of its input.
-/

namespace MifirReport.Batch

open Files

/-- Where the output of a conversion goes. -/
inductive Target
  | file (path : String)
  | directory (path : String)
  deriving DecidableEq, Repr

/-- The name of a generated file. -/
def outputName (party : String) (time : Timestamp) : String :=
  party ++ "_MIFID__" ++ String.ofList time.text ++ "_NNIPOUTPUT_0000.csv"

/-- The name that stands for a party that is not known. -/
def unknownParty : String := "UNKNOWN"

namespace Target

/-- The path of the output. -/
def resolve (target : Target) (party : Option String) (time : Timestamp) : String :=
  match target with
  | file path => path
  | directory path => Path.join path (outputName (party.getD unknownParty) time)

/-- The directory of the output. -/
def around : Target → String
  | file path => Path.parent path
  | directory path => path

end Target

/-- The name of the diagnostic for an input. -/
def diagnosticName (input : String) : String :=
  (Path.fileStem? input).getD "input" ++ ".invalid.csv"

/-- The path of the diagnostic for an input. -/
def diagnosticPath (input directory : String) : String :=
  Path.join directory (diagnosticName input)

end MifirReport.Batch
