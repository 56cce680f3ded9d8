/-!
# Flags

A report writes a flag as `1` or `0`, or as a word; a row writes the word, in lower case or with a
capital. What is neither is passed on as it is.
-/

namespace MifirReport.Report

/-- How a row writes a flag. -/
inductive FlagCase
  | lower
  | title
  deriving DecidableEq, Repr

/-- The word for a flag. -/
def FlagCase.literal : FlagCase → Bool → String
  | lower, true => "true"
  | lower, false => "false"
  | title, true => "True"
  | title, false => "False"

/-- A flag as a row writes it. -/
def normalizeFlag (raw : String) (style : FlagCase) : String :=
  if raw = "1" ∨ raw = "true" then style.literal true
  else if raw = "0" ∨ raw = "false" then style.literal false
  else raw

/-- Whether a sign marks a negative amount. -/
def isNegative (sign : String) : Bool :=
  sign == "1" || sign == "true"

end MifirReport.Report
