import MifirReport.Command.Run
import Std.Time.Format

/-!
# The program

The storage of the machine, the local time, and the command run on them.
-/

namespace MifirReport

open Files

/-- The cause behind an error of the machine. -/
def causeOf : IO.Error → Cause
  | .noFileOrDirectory .. => .notFound
  | .inappropriateType _ 20 _ => .notDirectory
  | .inappropriateType _ 21 _ => .isDirectory
  | .invalidArgument _ 36 _ => .nameTooLong
  | error => .other (toString error)

/-- Runs an action of the machine. -/
def attempt {α : Type} (action : IO α) : IO (Except Cause α) := do
  match ← action.toBaseIO with
  | .ok value => return .ok value
  | .error error => return .error (causeOf error)

/-- The storage of the machine. -/
def machineStorage : Storage IO where
  Handle := IO.FS.Handle
  read path := attempt (IO.FS.readBinFile path)
  create path := attempt (IO.FS.Handle.mk path .write)
  write handle bytes := attempt do
    handle.write bytes
    handle.flush
    return handle

/-- The local time to the second. -/
def localTime : IO (Option Batch.Timestamp) := do
  let now ← Std.Time.PlainDateTime.now
  return Batch.Timestamp.ofParts? now.year.toInt now.month.val.toNat now.day.val.toNat
    now.hour.val.toNat now.minute.val.toNat (min now.second.val.toNat 59)

end MifirReport

def main (words : List String) : IO UInt32 := do
  let some time ← MifirReport.localTime | return 1
  let outcome ← MifirReport.Command.execute MifirReport.machineStorage time words
  for message in outcome.messages do
    IO.eprintln message
  return outcome.status
