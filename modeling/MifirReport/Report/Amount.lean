import MifirReport.Report.Flag
import MifirReport.Xml.Lookup

/-!
# Amounts

An amount of money is an element with its amount in `Amt` and a sign in `Sgn`, or with the amount as
its own text. The currency is an attribute of `Amt` or, where that is empty, of the element. A sign
is only put before an amount that is there.
-/

namespace MifirReport.Report

open Xml

/-- An amount and its currency, as texts. -/
structure Amount where
  value : String
  currency : String
  deriving DecidableEq, Repr

/-- The attribute that names a currency. -/
def currencyOf (e : Element) : String :=
  (e.attribute? "Ccy").getD ""

/-- Reads an amount with its sign. -/
def signedAmount (x : Lookup) (e : Element) : Amount :=
  match x.child? e "Amt" with
  | none => ⟨e.text, currencyOf e⟩
  | some amount =>
    ⟨if amount.text ≠ "" ∧ isNegative (x.text e "Sgn") then "-" ++ amount.text else amount.text,
      if currencyOf amount ≠ "" then currencyOf amount else currencyOf e⟩

end MifirReport.Report
