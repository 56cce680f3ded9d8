import MifirReport.Files.Cause

/-!
# Storage

A conversion reads whole files, creates files and writes to those it has created. A `Storage` says
how that is done in a monad: on a disk that is a value (`MifirReport.Files.Disk`), or on that of the
machine. Creating a file empties one that is there, and a handle writes on from where it stopped.
-/

namespace MifirReport.Files

/-- Ways to read, create and write files in a monad. -/
structure Storage (m : Type → Type) where
  Handle : Type
  read : String → m (Except Cause ByteArray)
  create : String → m (Except Cause Handle)
  write : Handle → ByteArray → m (Except Cause Handle)

end MifirReport.Files
