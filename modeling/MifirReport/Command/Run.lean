import MifirReport.Batch.Run
import MifirReport.Client.File
import MifirReport.Command.Arguments

/-!
# The command

The command reads its arguments, chooses the client mode and converts the inputs. The mode that is
named counts; otherwise that of the client in the client table, which is read in any case. The
status is 0 if every input was converted, 1 if one was not or if the conversion failed, and 2 if the
arguments are refused.
-/

namespace MifirReport.Command

open Batch Client Files

/-- The status of the command and the messages it leaves. -/
structure Outcome where
  status : UInt32
  messages : List String
  deriving DecidableEq, Repr

/-- What is said of a log level that is not known. -/
def logLevelMessages : Option String → List String
  | none => []
  | some level =>
    if ["trace", "debug", "info", "warn", "error"].any (Text.isWord · level.toList) then []
    else ["Invalid log level '" ++ level ++ "', defaulting to 'info'"]

/-- The target that the arguments name. -/
def target? (arguments : Arguments) : Option Target :=
  match arguments.output, arguments.outputDirectory with
  | some path, _ => some (.file path)
  | none, some path => some (.directory path)
  | none, none => none

variable {m : Type → Type} [Monad m] (storage : Storage m)

/-- The mode that the arguments choose. -/
def chooseMode (arguments : Arguments) : m (Except Error ClientMode) := do
  let client ← match arguments.clientTable with
    | none => pure (.ok "")
    | some path => clientOfFile storage path
  match client with
  | .error error => return .error error
  | .ok client =>
    match arguments.clientMode with
    | none => return .ok (.ofClient client)
    | some name =>
      match ClientMode.ofName? name with
      | none => return .error (.unknownMode name)
      | some mode => return .ok mode

/-- Converts what the arguments name; the answer is whether every input was converted. -/
def convert (time : Timestamp) (arguments : Arguments) : m (Except Error Bool) := do
  match ← chooseMode storage arguments with
  | .error error => return .error error
  | .ok mode =>
    match target? arguments with
    | none => return .error .noTarget
    | some target =>
      let policy := if arguments.keepGoing then Policy.keepGoing else .failFast
      match ← run storage ⟨mode, policy, target, time⟩ arguments.inputs with
      | .error error => return .error error
      | .ok summary => return .ok summary.failed.isEmpty

/-- Runs the command. -/
def execute (time : Timestamp) (words : List String) : m Outcome := do
  match readArguments words with
  | .error cause => return ⟨2, ["error: " ++ cause.message]⟩
  | .ok .help => return ⟨0, []⟩
  | .ok (.convert arguments) =>
    let messages := logLevelMessages arguments.logLevel
    match ← convert storage time arguments with
    | .error error => return ⟨1, messages ++ ["Error: " ++ error.message]⟩
    | .ok true => return ⟨0, messages⟩
    | .ok false => return ⟨1, messages⟩

end MifirReport.Command
