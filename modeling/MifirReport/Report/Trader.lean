import MifirReport.Report.Identity

/-!
# Traders

The decision for a trade and its execution lie with a person, with an algorithm or, for the
execution only, with the client.
-/

namespace MifirReport.Report

open Xml

/-- The identification of a trader, as texts. -/
structure Trader where
  kind : String := ""
  identifier : String := ""
  country : String := ""
  deriving DecidableEq, Repr

/-- Reads a trader: a person, else an algorithm, else the client where that is allowed. -/
def resolveTrader (x : Lookup) (e : Element) (allowClient : Bool) : Trader :=
  match x.child? e "Prsn" with
  | some person =>
    ⟨personScheme x person, x.pathText person ["Othr", "Id"], x.text person "CtryOfBrnch"⟩
  | none =>
    match x.child? e "Algo" with
    | some algorithm => ⟨"ALGO", algorithm.text, ""⟩
    | none => if allowClient ∧ x.has e "Clnt" then ⟨"CLIENT", "", ""⟩ else {}

end MifirReport.Report
