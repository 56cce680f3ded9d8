import MifirReport.Report.Identity
import MifirReport.Report.Tagged
import MifirReport.Report.Trader
import MifirReport.Report.Transaction
import MifirReport.Report.Underlying
import MifirReport.Table.Row

/-!
# From transactions to rows

Each cell of a row is a function of the transaction, of the namespace and of the client mode. The
columns come in blocks (`MifirReport.Table.Column`), and the cells of a block are read from one
element of a new transaction; if that element is not there, they are empty. A cancellation fills
three cells only.

`Transaction.row` is the row of a transaction and `mapElement` that of a transaction element.
`TransactionReport.rows` maps the transactions of a report in order, up to the first that has no
content.
-/

namespace MifirReport.Report

open Xml Table Client

variable (x : Lookup)

/-! ## Parties -/

/-- The tag of a side in a report. -/
def sideTag : Side → String
  | .buyer => "Buyr"
  | .seller => "Sellr"

/-- The tag of a role in a report. -/
def roleTag : PartyRole → String
  | .owner => "AcctOwnr"
  | .decisionMaker => "DcsnMakr"

/-- The parties in a role on one side, in order. -/
def parties (new : Element) (side : Side) (role : PartyRole) : List Element :=
  (x.child? new (sideTag side)).elim [] (x.children · (roleTag role))

/-- The identity of a party. That of an owner is in an element of its own. -/
def partyIdentity (role : PartyRole) (party : Element) : Identity :=
  match role with
  | .owner => (x.child? party "Id").elim {} (resolveIdentity x · ownerForms)
  | .decisionMaker => resolveIdentity x party decisionMakerForms

/-- What one party puts into a column. The lookup code is left to the recipient. -/
def Identity.entry (identity : Identity) : PartyField → String
  | .kind => identity.kind
  | .lookupCode => ""
  | .code => identity.code
  | .forename => identity.person.elim "" Person.forename
  | .surname => identity.person.elim "" Person.surname
  | .birthDate => identity.person.elim "" Person.birthDate

/-- A cell of the parties in a role on one side: an entry for each of them. -/
def partyCell (new : Element) (side : Side) (role : PartyRole) (field : PartyField) : String :=
  Row.joined ((parties x new side role).map fun party => (partyIdentity x role party).entry field)

/-- The countries of the owners on one side. -/
def ownerCountryCell (new : Element) (side : Side) : String :=
  Row.joined ((parties x new side .owner).map (x.text · "CtryOfBrnch"))

/-! ## The order and the trade -/

/-- A flag in an element, empty if the flag is not there. -/
def flagText (e : Element) (tag : String) (style : FlagCase) : String :=
  (x.child? e tag).elim "" fun flag => normalizeFlag flag.text style

/-- A cell on the transmission of the order. -/
def transmissionCell (e : Element) : TransmissionField → String
  | .indicator => flagText x e "TrnsmssnInd" .title
  | .buyer => x.text e "TrnsmttgBuyr"
  | .seller => x.text e "TrnsmttgSellr"

/-- A column of a value that may not be there. -/
def taggedCell (found : Option Tagged) (field : TaggedField) : String :=
  found.elim "" fun tagged =>
    match field with
    | .kind => tagged.kind
    | .value => tagged.value
    | .currency => tagged.currency

/-- The payment made up front, unless its amount is empty. -/
def upFrontPayment? (trade : Element) : Option Amount :=
  ((x.child? trade "UpFrntPmt").map (signedAmount x)).filter (·.value ≠ "")

/-- A cell on the trade. -/
def tradeCell (e : Element) : TradeField → String
  | .time => x.text e "TradDt"
  | .capacity => x.text e "TradgCpcty"
  | .quantity field =>
    taggedCell ((x.child? e "Qty").bind (resolve x · quantityAlternatives)) field
  | .notionalChange => x.text e "DerivNtnlChng"
  | .price field => taggedCell ((x.child? e "Pric").bind (resolvePrice x · .onlyPending)) field
  | .netAmount => x.text e "NetAmt"
  | .venue => x.text e "TradVn"
  | .branchCountry => x.text e "CtryOfBrnch"
  | .upFrontAmount => (upFrontPayment? x e).elim "" Amount.value
  | .upFrontCurrency => (upFrontPayment? x e).elim "" Amount.currency
  | .component => x.text e "CmplxTradCmpntId"

/-! ## The instrument -/

/-- The second notional currency, which depends on the class of the instrument. -/
def otherNotionalCurrency (derivative : Element) : String :=
  (x.child? derivative "AsstClssSpcfcAttrbts").elim "" fun assetClass =>
    ((x.child? assetClass "Intrst").or (x.child? assetClass "FX")).elim ""
      (x.text · "OthrNtnlCcy")

/-- A cell on the general attributes of an instrument; the others are empty. -/
def generalCell (e : Element) : InstrumentField → String
  | .code => x.text e "Id"
  | .fullName => x.text e "FullNm"
  | .classification => x.text e "ClssfctnTp"
  | .notionalCurrency => x.text e "NtnlCcy"
  | _ => ""

/-- A cell on the attributes of a derivative; the others are empty. -/
def derivativeCell (e : Element) : InstrumentField → String
  | .otherNotionalCurrency => otherNotionalCurrency x e
  | .priceMultiplier => x.text e "PricMltplr"
  | .underlying field =>
    (x.path? e ["UndrlygInstrm", "Swp"]).elim "" fun swap =>
      Row.joined ((swapUnderlyings x swap).entries field)
  | .optionType => x.text e "OptnTp"
  | .strike field => taggedCell ((x.child? e "StrkPric").bind (resolvePrice x · .always)) field
  | .exerciseStyle => x.text e "OptnExrcStyle"
  | .maturityDate => x.text e "MtrtyDt"
  | .expiryDate => x.text e "XpryDt"
  | .deliveryType => x.text e "DlvryTp"
  | _ => ""

/-- Whether a column is read from the general attributes of an instrument. -/
def isGeneral : InstrumentField → Bool
  | .code | .fullName | .classification | .notionalCurrency => true
  | _ => false

/-- A cell on the instrument. A code of the instrument makes everything else about it void. -/
def instrumentCell (e : Element) (field : InstrumentField) : String :=
  match x.child? e "Id" with
  | some id => if field = .code then id.text else ""
  | none =>
    (x.child? e "Othr").elim "" fun other =>
      if isGeneral field then
        (x.child? other "FinInstrmGnlAttrbts").elim "" (generalCell x · field)
      else (x.child? other "DerivInstrmAttrbts").elim "" (derivativeCell x · field)

/-! ## Traders, indicators and eligibility -/

/-- The tag of a trader in a report. -/
def traderTag : TraderRole → String
  | .decision => "InvstmtDcsnPrsn"
  | .execution => "ExctgPrsn"

/-- The trader in a role. Only the execution may lie with the client. -/
def trader (new : Element) (role : TraderRole) : Trader :=
  (x.child? new (traderTag role)).elim {} (resolveTrader x · (role = .execution))

/-- The column that the identifier of a trader goes to. -/
def identifierField : ClientMode → TraderField
  | .standard => .code
  | .nnip => .lookupCode

/-- A cell on a trader. -/
def traderCell (mode : ClientMode) (new : Element) (role : TraderRole) (field : TraderField) :
    String :=
  match field with
  | .kind => (trader x new role).kind
  | .country => (trader x new role).country
  | field => if field = identifierField mode then (trader x new role).identifier else ""

/-- The texts of all elements with a given tag, as the entries of one cell. -/
def listText (e : Element) (tag : String) : String :=
  Row.joined ((x.children e tag).map Element.text)

/-- A cell on the indicators. -/
def indicatorCell (e : Element) : IndicatorField → String
  | .waiver => listText x e "WvrInd"
  | .shortSelling => x.text e "ShrtSellgInd"
  | .postTrade => listText x e "OTCPstTradInd"
  | .riskReducing => flagText x e "RskRdcgTx" .title
  | .securitiesFinancing => flagText x e "SctiesFincgTxInd" .title

/-- A cell on the eligibility. -/
def eligibilityCell (e : Element) : EligibilityField → String
  | .branchLocation => x.text e "BrnchLctn"
  | .transactionType => x.text e "TxTp"
  | .lifecycleEvent => x.text e "LfcclEvnt"

/-! ## Rows -/

/-- A cell on the transaction itself. -/
def detailCell (new : Element) : DetailField → String
  | .status => Kind.new.code
  | .reference => x.text new "TxId"
  | .venueReference => ""
  | .executingParty => x.text new "ExctgPty"
  | .investmentFirm => flagText x new "InvstmtPtyInd" .lower

/-- A cell of a new transaction. -/
def newCell (mode : ClientMode) (new : Element) : Column → String
  | .detail field => detailCell x new field
  | .party side role field => partyCell x new side role field
  | .ownerCountry side => ownerCountryCell x new side
  | .transmission field => (x.child? new "OrdrTrnsmssn").elim "" (transmissionCell x · field)
  | .trade field => (x.child? new "Tx").elim "" (tradeCell x · field)
  | .instrument field => (x.child? new "FinInstrm").elim "" (instrumentCell x · field)
  | .trader role field => traderCell x mode new role field
  | .indicator field => (x.child? new "AddtlAttrbts").elim "" (indicatorCell x · field)
  | .eligibility field =>
    (x.child? new "ElgbltyDtrmntnAttrbts").elim "" (eligibilityCell x · field)

/-- A cell of a cancellation. -/
def cancellationCell (cancellation : Element) : Column → String
  | .detail .status => Kind.cancellation.code
  | .detail .reference => x.text cancellation "TxId"
  | .detail .executingParty => x.text cancellation "ExctgPty"
  | _ => ""

/-- The row of a transaction. -/
def Transaction.row (mode : ClientMode) (transaction : Transaction) : Row :=
  match transaction.kind with
  | .new => ⟨newCell x mode transaction.content⟩
  | .cancellation => ⟨cancellationCell x transaction.content⟩

/-- The row of a transaction element, whose number in its report is `index`. -/
def mapElement (mode : ClientMode) (e : Element) (index : Nat) : Except Error Row :=
  (Transaction.ofElement x e index).map (Transaction.row x mode)

/-- The rows of transaction elements, the first of which has the number `index`, and the error of
the first that has no row. -/
def rowsFrom (mode : ClientMode) (index : Nat) : List Element → List Row × Option Error
  | [] => ([], none)
  | e :: es =>
    match mapElement x mode e index with
    | .error cause => ([], some cause)
    | .ok row =>
      let (rows, failure) := rowsFrom mode (index + 1) es
      (row :: rows, failure)

/-- The rows of a report up to the first transaction that has none, and the error of that one. -/
def TransactionReport.rows (report : TransactionReport) (mode : ClientMode) :
    List Row × Option Error :=
  rowsFrom report.lookup mode 1 report.transactions

end MifirReport.Report
