import MifirReport.Client.Mode
import MifirReport.Csv.Reading
import MifirReport.Csv.Writer
import MifirReport.Text.Utf8

/-!
# The client table

The client is named by the first cell of a table's first row below the header. The header may hold
anything, other cells and further rows do not matter, but the row itself has to be UTF-8: the first
field that is not is reported with the number of its bytes that are.
-/

namespace MifirReport.Client

/-- The causes for which a client table names no client. -/
inductive TableError
  | csv (cause : Csv.Cause)
  | noDataRow
  deriving DecidableEq, Repr

/-- A byte sequence without the byte order mark it may begin with. -/
def dropMark : List UInt8 → List UInt8
  | 0xEF :: 0xBB :: 0xBF :: bytes => bytes
  | bytes => bytes

/-- The text of a field. -/
def fieldText? (field : List UInt8) : Option String :=
  String.fromUTF8? ⟨field.toArray⟩

/-- The texts of the fields of a record, the first of which has a given number. -/
def recordText (number : Nat) : List (List UInt8) → Except Csv.Cause (List String)
  | [] => .ok []
  | field :: fields =>
    match fieldText? field with
    | none => .error (.notUtf8 number (Text.Utf8.validLength field))
    | some text => (text :: ·) <$> recordText (number + 1) fields

/-- The client that a table names. -/
def clientOfTable (table : ByteArray) : Except TableError String :=
  match Csv.read? .ofByte (dropMark table.data.toList) with
  | none => .error .noDataRow
  | some (_, rest) =>
    match Csv.read? .ofByte rest with
    | none => .error .noDataRow
    | some (fields, _) =>
      match recordText 0 fields with
      | .error cause => .error (.csv cause)
      | .ok cells => .ok (String.ofList (Text.trim (cells.headD "").toList))

end MifirReport.Client
