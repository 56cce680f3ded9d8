/-!
# Qualified names

A name may carry a label that stands for a namespace: the label ends at the first colon and the
local part is everything after it.
-/

namespace MifirReport.Xml.Name

/-- The label of a name, if it has a colon. -/
def label? (name : List Char) : Option (List Char) :=
  if ':' ∈ name then some (name.takeWhile (· ≠ ':')) else none

/-- A name without its label. -/
def localPart (name : List Char) : List Char :=
  if ':' ∈ name then (name.dropWhile (· ≠ ':')).tail else name

end MifirReport.Xml.Name
