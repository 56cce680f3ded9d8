import MifirReport.Error
import MifirReport.Xml.Document
import MifirReport.Xml.Lookup

/-!
# Reports and their transactions

A report is a document with the root `Document`, whose namespace is that of all tags in it. Its
transactions are the `Tx` elements of the first `FinInstrmRptgTxRpt` element. A transaction is a new
one or the cancellation of an earlier one; where it is both, it is new.
-/

namespace MifirReport.Report

open Xml

/-- A document that is recognised as a report. -/
structure TransactionReport where
  root : Element
  isDocument : root.name = "Document"

/-- What a transaction reports. -/
inductive Kind
  | new
  | cancellation
  deriving DecidableEq, Repr

namespace Kind

/-- The code of a kind in a row. -/
def code : Kind → String
  | new => "NEWT"
  | cancellation => "CANC"

/-- The tag of a kind in a report. -/
def tag : Kind → String
  | new => "New"
  | cancellation => "Cxl"

end Kind

/-- The content of a transaction, by its kind. -/
structure Transaction where
  kind : Kind
  content : Element

/-- Reads a transaction element, whose number in its report is `index`. -/
def Transaction.ofElement (x : Lookup) (e : Element) (index : Nat) : Except Error Transaction :=
  match x.child? e Kind.new.tag with
  | some content => .ok ⟨.new, content⟩
  | none =>
    match x.child? e Kind.cancellation.tag with
    | some content => .ok ⟨.cancellation, content⟩
    | none => .error (.missingVariant index)

/-- The root of a document in a text. -/
def parseRoot (document : String) : Except Error Element :=
  match Document.parse document with
  | .error cause => .error (.xml cause)
  | .ok root => .ok root

/-- The root of a document in a stream of bytes, which has to be UTF-8 to be read at all. -/
def rootOfStream (bytes : ByteArray) : Except Error Element :=
  match String.fromUTF8? bytes with
  | none => .error (.file .notUtf8)
  | some document => parseRoot document

namespace TransactionReport

/-- Recognises a document as a report. -/
def ofRoot (root : Element) : Except Error TransactionReport :=
  if h : root.name = "Document" then .ok ⟨root, h⟩ else .error (.unrecognizedRoot root.name)

/-- Reads a report from a text. -/
def parse (document : String) : Except Error TransactionReport :=
  parseRoot document >>= ofRoot

/-- Reads a report from a stream of bytes. -/
def ofStream (bytes : ByteArray) : Except Error TransactionReport :=
  rootOfStream bytes >>= ofRoot

variable (report : TransactionReport)

/-- Lookups in the namespace of a report. -/
def lookup : Lookup := .ofRoot report.root

/-- The element that holds the transactions. -/
def container? : Option Element :=
  report.lookup.child? report.root "FinInstrmRptgTxRpt"

/-- The transaction elements, in order. -/
def transactions : List Element :=
  report.container?.elim [] (report.lookup.children · "Tx")

/-- The executing party of the first transaction, unless it is empty. -/
def firstParty? : Option String :=
  match report.transactions with
  | [] => none
  | e :: _ =>
    match Transaction.ofElement report.lookup e 1 with
    | .error _ => none
    | .ok transaction =>
      let party := report.lookup.text transaction.content "ExctgPty"
      if party = "" then none else some party

end TransactionReport

end MifirReport.Report
