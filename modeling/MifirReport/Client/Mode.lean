import MifirReport.Text.Blank
import MifirReport.Text.Case

/-!
# Client modes

For most clients the identifiers of traders go to the code columns. In NNIP mode they go to the
lookup columns, from which the recipient derives the codes. A mode is chosen by name
(`ClientMode.ofName?`), where other names are refused, or by the name of a client
(`ClientMode.ofClient`), where all clients but one have the standard mode.
-/

namespace MifirReport.Client

/-- Where the identifiers of traders go. -/
inductive ClientMode
  | standard
  | nnip
  deriving DecidableEq, Repr

namespace ClientMode

/-- The name of a mode. -/
def name : ClientMode → String
  | standard => "standard"
  | nnip => "NNIP"

/-- The mode with a given name. Letter case and blanks around the name do not count. -/
def ofName? (name : String) : Option ClientMode :=
  let word := Text.trim name.toList
  if Text.isWord "nnip" word then some nnip
  else if Text.isWord "" word ∨ Text.isWord "standard" word ∨ Text.isWord "default" word then
    some standard
  else none

/-- The mode for a client. -/
def ofClient (client : String) : ClientMode :=
  if Text.isWordAscii "NNIP" (Text.trim client.toList) then nnip else standard

end ClientMode

end MifirReport.Client
