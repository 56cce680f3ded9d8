import MifirReport.Error
import MifirReport.Files.Path
import MifirReport.Files.Storage

/-!
# The client table in a file

Only a file with the extension `csv` is read as a client table. A path with another extension, or
with none, names no client, whether there is a file or not.
-/

namespace MifirReport.Client

open Files

/-- The error for a file that cannot be read as a client table. A directory can be opened, so that
it fails as a table. -/
def unreadable : Files.Cause → Error
  | .isDirectory => .csv (.file .isDirectory)
  | cause => .file cause

/-- The client that the table in a file names. -/
def clientOfFile {m : Type → Type} [Monad m] (storage : Storage m) (path : String) :
    m (Except Error String) := do
  if Path.extension? path = some "csv" then
    match ← storage.read path with
    | .error cause => return .error (unreadable cause)
    | .ok table =>
      match clientOfTable table with
      | .error cause => return .error (.ofTable cause)
      | .ok client => return .ok client
  else return .ok ""

end MifirReport.Client
