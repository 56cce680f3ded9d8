import MifirReport.Report.Amount

/-!
# Values of several kinds

A quantity, a price or a strike price comes in one of several kinds, each with a tag of its own. The
kinds are tried in a fixed order and the first whose tag is there counts (`resolve`). A price that
is still to come is announced with a code in `NoPric/Pdg` instead (`resolvePrice`).
-/

namespace MifirReport.Report

open Xml

/-- A value with its kind and its currency, as texts. -/
structure Tagged where
  kind : String
  value : String
  currency : String
  deriving DecidableEq, Repr

/-- How a value is read: as the text of its element, or as an amount with a sign. -/
inductive Reading
  | text
  | amount
  deriving DecidableEq, Repr

/-- A kind of value: its tag in a report, its code in a row, and how it is read. -/
structure Alternative where
  tag : String
  kind : String
  reading : Reading
  deriving DecidableEq, Repr

/-- The kinds of quantity, in order. -/
def quantityAlternatives : List Alternative :=
  [⟨"Unit", "UNIT", .text⟩, ⟨"NmnlVal", "NOMI", .amount⟩, ⟨"MntryVal", "MONE", .amount⟩]

/-- The kinds of price, in order. -/
def priceAlternatives : List Alternative :=
  [⟨"MntryVal", "MONE", .amount⟩, ⟨"Pctg", "PERC", .text⟩, ⟨"Yld", "YIEL", .text⟩,
    ⟨"BsisPts", "BPNT", .text⟩]

/-- Reads a value of a given kind from its element. -/
def Alternative.read (x : Lookup) (alternative : Alternative) (found : Element) : Tagged :=
  match alternative.reading with
  | .text => ⟨alternative.kind, found.text, ""⟩
  | .amount =>
    let amount := signedAmount x found
    ⟨alternative.kind, amount.value, amount.currency⟩

/-- The value of the first kind that is there. -/
def resolve (x : Lookup) (e : Element) (alternatives : List Alternative) : Option Tagged :=
  alternatives.findSome? fun alternative =>
    (x.child? e alternative.tag).map (alternative.read x)

/-- Which codes of a price still to come are written as its value too. -/
inductive Pending
  | onlyPending
  | always
  deriving DecidableEq, Repr

/-- Whether the code of a price still to come is its value too. -/
def Pending.keeps (pending : Pending) (code : String) : Bool :=
  pending == .always || code == "PNDG"

/-- The value of a price still to come. -/
def pendingPrice (x : Lookup) (e : Element) (pending : Pending) : Tagged :=
  let currency := x.text e "Ccy"
  match x.child? e "Pdg" with
  | none => ⟨"", "", currency⟩
  | some code => ⟨code.text, if pending.keeps code.text then code.text else "", currency⟩

/-- The value of a price, or of a price still to come. Where there is a price, nothing else counts.
-/
def resolvePrice (x : Lookup) (e : Element) (pending : Pending) : Option Tagged :=
  match x.child? e "Pric" with
  | some price => resolve x price priceAlternatives
  | none => (x.child? e "NoPric").map fun noPrice => pendingPrice x noPrice pending

end MifirReport.Report
