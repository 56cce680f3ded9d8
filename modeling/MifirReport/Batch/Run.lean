import MifirReport.Batch.Target
import MifirReport.Files.Storage
import MifirReport.Report.Mapping
import MifirReport.Table.Emitter
import MifirReport.Text.Utf8

/-!
# Converting a batch of files

The inputs are converted in order into one table. The output is created when the first report is
met, under a name that the report may decide, and rows are written as they come, so that a
transaction without content leaves the rows before it in the output.

An input that is not a report that can be mapped is replaced by a diagnostic. Under
`Policy.failFast` the diagnostic takes the place of the output and the conversion ends; under
`Policy.keepGoing` it goes to a file of its own and the conversion goes on. Any other failure ends
the conversion with an error. In every case the rows written so far reach the storage.
-/

namespace MifirReport.Batch

open Client Files Report Table

/-- What to do about an input that is not a report. -/
inductive Policy
  | failFast
  | keepGoing
  deriving DecidableEq, Repr

/-- How a batch is converted. -/
structure Settings where
  mode : ClientMode
  policy : Policy
  target : Target
  time : Timestamp

/-- The outcome of a conversion: the number of data rows in the output, the number of inputs without
a diagnostic, the inputs with one in order, and the path of the output. -/
structure Summary where
  transactions : Nat
  processed : Nat
  failed : List String
  output : String
  deriving DecidableEq, Repr

/-- Reads a report from the bytes of a file. -/
def readReport (bytes : ByteArray) : Except Error TransactionReport :=
  match String.fromUTF8? bytes with
  | none => .error .notUtf8
  | some document => TransactionReport.parse document

variable {m : Type → Type} [Monad m] (storage : Storage m)

/-! ## The output -/

/-- An output that has been created. -/
structure Output where
  path : String
  handle : storage.Handle
  emitter : Emitter

/-- Writes the bytes that are due. -/
def Output.deliver (output : Output storage) (due : ByteArray) :
    m (Except Error (Output storage)) := do
  if due.isEmpty then return .ok output
  match ← storage.write output.handle due with
  | .error cause => return .error (.csv (.file cause))
  | .ok handle => return .ok { output with handle }

/-- Writes the header row. -/
def Output.header (output : Output storage) : m (Except Error (Output storage)) := do
  match output.emitter.header with
  | .error cause => return .error (.csv cause)
  | .ok (due, emitter) => Output.deliver storage { output with emitter } due

/-- Creates an output and begins it with the header row. -/
def Output.create (path : String) : m (Except Error (Output storage)) := do
  match ← storage.create path with
  | .error cause => return .error (.file cause)
  | .ok handle => Output.header storage ⟨path, handle, {}⟩

/-- Writes data rows. -/
def Output.addRows (output : Output storage) (rows : List Row) :
    m (Except Error (Output storage)) := do
  match output.emitter.addRows rows with
  | .error cause => return .error (.csv cause)
  | .ok (due, emitter) => Output.deliver storage { output with emitter } due

/-- Writes the bytes that were kept back. -/
def Output.flush (output : Output storage) : m (Except Error (Output storage)) :=
  let (due, emitter) := output.emitter.flush
  Output.deliver storage { output with emitter } due

/-- Flushes an output, if there is one, on the way out. -/
def abandon {α : Type} (output : Option (Output storage)) (error : Error) : m (Except Error α) := do
  match output with
  | none => return .error error
  | some output =>
    let _ ← output.flush
    return .error error

/-- Creates a file that holds a diagnostic and nothing else. -/
def writeDiagnostic (path : String) (bytes : ByteArray) : m (Except Error Unit) := do
  match ← storage.create path with
  | .error cause => return .error (.file cause)
  | .ok handle =>
    match diagnostic (Text.Utf8.decodeLossy bytes.data.toList) with
    | .error cause => return .error (.csv cause)
    | .ok table =>
      match ← storage.write handle table with
      | .error cause => return .error (.csv (.file cause))
      | .ok _ => return .ok ()

/-! ## The inputs -/

/-- What has been done so far. -/
structure Progress where
  output : Option (Output storage) := none
  processed : Nat := 0
  failed : List String := []

/-- The output for a report: the one there is, or a new one. -/
def ensureOutput (settings : Settings) (output : Option (Output storage))
    (report : TransactionReport) : m (Except Error (Output storage)) :=
  match output with
  | some output => return .ok output
  | none => Output.create storage (settings.target.resolve report.firstParty? settings.time)

/-- Converts one input. Returns the output, if there is one now, and the error if there is one. -/
def convert (settings : Settings) (output : Option (Output storage)) (bytes : ByteArray) :
    m (Option (Output storage) × Option Error) := do
  match readReport bytes with
  | .error error => return (output, some error)
  | .ok report =>
    match ← ensureOutput storage settings output report with
    | .error error => return (output, some error)
    | .ok output =>
      let (rows, failure) := report.rows settings.mode
      match ← output.addRows storage rows with
      | .error error => return (some output, some error)
      | .ok output => return (some output, failure)

/-- Ends a conversion in which no input was left: an output without rows is created if there is none
yet, and what was kept back is written. -/
def finish (settings : Settings) (progress : Progress storage) : m (Except Error Summary) := do
  let output ← match progress.output with
    | some output => pure (.ok output)
    | none => Output.create storage (settings.target.resolve none settings.time)
  match output with
  | .error error => return .error error
  | .ok output =>
    match ← output.flush with
    | .error error => return .error error
    | .ok output =>
      return .ok ⟨output.emitter.rows, progress.processed, progress.failed.reverse, output.path⟩

/-- Ends a conversion with a diagnostic in place of the output. -/
def stop (settings : Settings) (progress : Progress storage) (input : String) (bytes : ByteArray) :
    m (Except Error Summary) := do
  let path ← match progress.output with
    | none => pure (settings.target.resolve none settings.time)
    | some output => do
      let _ ← output.flush
      pure output.path
  match ← writeDiagnostic storage path bytes with
  | .error error => return .error error
  | .ok () => return .ok ⟨0, progress.processed, (input :: progress.failed).reverse, path⟩

/-- Converts the inputs that are left. -/
def convertAll (settings : Settings) (progress : Progress storage) :
    List String → m (Except Error Summary)
  | [] => finish storage settings progress
  | input :: inputs => do
    match ← storage.read input with
    | .error cause => abandon storage progress.output (.file cause)
    | .ok bytes =>
      match ← convert storage settings progress.output bytes with
      | (output, none) =>
        convertAll settings { progress with output, processed := progress.processed + 1 } inputs
      | (output, some error) =>
        if error.isInvalidDocument then
          match settings.policy with
          | .failFast => stop storage settings { progress with output } input bytes
          | .keepGoing =>
            match ← writeDiagnostic storage (diagnosticPath input settings.target.around) bytes with
            | .error error => abandon storage output error
            | .ok () =>
              let failed := input :: progress.failed
              convertAll settings { progress with output, failed } inputs
        else abandon storage output error

/-- Converts a batch of files. -/
def run (settings : Settings) (inputs : List String) : m (Except Error Summary) :=
  if inputs.isEmpty then return .error .noInput
  else convertAll storage settings {} inputs

end MifirReport.Batch
