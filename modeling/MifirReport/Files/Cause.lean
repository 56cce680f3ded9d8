/-!
# Why a file cannot be used

Reading and creating files fails for a few causes that a caller can tell apart, and each has its
wording with the number that the system gives it. What else a system reports is kept as its text.
-/

namespace MifirReport.Files

/-- The causes for which a file cannot be read or created. -/
inductive Cause
  | notFound
  | notDirectory
  | isDirectory
  | nameTooLong
  | nulInName
  | notUtf8
  | other (text : String)
  deriving DecidableEq, Repr

/-- The wording of a cause. -/
def Cause.message : Cause → String
  | notFound => "No such file or directory (os error 2)"
  | notDirectory => "Not a directory (os error 20)"
  | isDirectory => "Is a directory (os error 21)"
  | nameTooLong => "File name too long (os error 36)"
  | nulInName => "file name contained an unexpected NUL byte"
  | notUtf8 => "stream did not contain valid UTF-8"
  | other text => text

end MifirReport.Files
