import MifirReport.Text.Blank

/-!
# Text on one line

A diagnostic shows a whole file in one cell. `collapse` cuts the file at its line feeds, trims each
piece and joins what is left, so that indentation and line ends go and everything else stays. A
carriage return before a line feed is blank and goes with the trimming.
-/

namespace MifirReport.Text

/-- The pieces of a text between its line feeds. -/
def lines (cs : List Char) : List (List Char) :=
  cs.splitOn '\n'

/-- The lines of a text, trimmed and joined. -/
def collapse (cs : List Char) : List Char :=
  (lines cs).flatMap trim

end MifirReport.Text
