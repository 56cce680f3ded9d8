import MifirReport.Client.Table
import MifirReport.Xml.Error

/-!
# Errors

The causes for which a conversion, or one document of it, fails. Three of them say that a document
is not a report that can be mapped (`Error.isInvalidDocument`): it is then replaced by a diagnostic,
and the conversion may go on. The others end it. `Error.message` words each cause.
-/

namespace MifirReport

/-- The causes of failure. -/
inductive Error
  | file (cause : Files.Cause)
  | csv (cause : Csv.Cause)
  | xml (cause : Xml.XmlError)
  | notUtf8
  | unrecognizedRoot (name : String)
  | missingVariant (index : Nat)
  | unknownMode (name : String)
  | noDataRow
  | noInput
  | noTarget
  deriving DecidableEq, Repr

namespace Error

/-- The error for a client table that names no client. -/
def ofTable : Client.TableError → Error
  | .csv cause => csv cause
  | .noDataRow => noDataRow

/-- Whether a document is to blame, so that a diagnostic stands for it. -/
def isInvalidDocument : Error → Bool
  | xml _ | notUtf8 | unrecognizedRoot _ | missingVariant _ => true
  | _ => false

/-- The wording of an error. -/
def message : Error → String
  | file cause => "I/O error: " ++ cause.message
  | csv cause => "CSV error: " ++ cause.message
  | xml cause => "XML parsing error: " ++ cause.message
  | notUtf8 => "XML parsing error: input is not valid UTF-8"
  | unrecognizedRoot name =>
    "Unrecognised XML: root element is <" ++ name ++ ">, expected <Document>"
  | missingVariant index => "TX block number " ++ toString index ++ " has no NEW or CXL blocks"
  | unknownMode name => "Invalid client mode: " ++ name
  | noDataRow => "Configuration error: client configuration table has no data row"
  | noInput => "Missing required field: input files"
  | noTarget => "Missing required field: --output or --output-dir"

end Error

end MifirReport
