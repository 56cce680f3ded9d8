import MifirReport.Proofs.Report.Parties

/-!
# Traders and the client mode

The traders of a new transaction are who decided on it and who executed it. `TraderIs` says who a
trader is : a person, else an algorithm, else the client where that is allowed, else nobody. There
is exactly one answer (`traderIs_iff`), and it does not ask for the client mode.

The mode decides only in which of two columns the identifier of a trader stands, and leaves the
other one blank. So the rows in the two modes are each other's with these two columns exchanged, for
both traders, and the row of a cancellation is the same in both : `newRow_traders`.
-/

namespace MifirReport

namespace Table

/-- The columns with the lookup code and the code of each trader exchanged. -/
def Column.exchanged : Column → Column
  | .trader role .lookupCode => .trader role .code
  | .trader role .code => .trader role .lookupCode
  | column => column

end Table

namespace Report

open Xml Table Client

variable {x : Lookup}

/-! ## Who a trader is -/

/-- The trader that an element names in a role. -/
inductive NamesTrader (x : Lookup) (e : Element) : TraderRole → Trader → Prop
  | person {role : TraderRole} {person : Element} {scheme : String} :
      x.child? e "Prsn" = some person → IsScheme x person scheme →
      NamesTrader x e role
        ⟨scheme, x.pathText person ["Othr", "Id"], x.text person "CtryOfBrnch"⟩
  | algorithm {role : TraderRole} {algorithm : Element} : x.child? e "Prsn" = none →
      x.child? e "Algo" = some algorithm → NamesTrader x e role ⟨"ALGO", algorithm.text, ""⟩
  | client {client : Element} : x.child? e "Prsn" = none → x.child? e "Algo" = none →
      x.child? e "Clnt" = some client → NamesTrader x e .execution ⟨"CLIENT", "", ""⟩
  | nobody {role : TraderRole} : x.child? e "Prsn" = none → x.child? e "Algo" = none →
      (role = .execution → x.child? e "Clnt" = none) → NamesTrader x e role ⟨"", "", ""⟩

/-- The element of a new transaction that names the trader in a role. -/
def traderNode? (x : Lookup) (new : Element) : TraderRole → Option Element
  | .decision => x.child? new "InvstmtDcsnPrsn"
  | .execution => x.child? new "ExctgPrsn"

/-- The trader in a role, blank if no element names one. -/
inductive TraderIs (x : Lookup) (new : Element) (role : TraderRole) : Trader → Prop
  | blank : traderNode? x new role = none → TraderIs x new role ⟨"", "", ""⟩
  | node {e : Element} {trader : Trader} : traderNode? x new role = some e →
      NamesTrader x e role trader → TraderIs x new role trader

/-- Who is named is who is found. -/
theorem resolveTrader_of_namesTrader {e : Element} {role : TraderRole} {trader : Trader}
    (h : NamesTrader x e role trader) : resolveTrader x e (role = .execution) = trader := by
  cases h with
  | person hperson hscheme =>
    rw [isScheme_iff] at hscheme
    simp only [resolveTrader, hperson, hscheme]
  | algorithm hperson halgorithm => simp only [resolveTrader, hperson, halgorithm]
  | client hperson halgorithm hclient =>
    simp [resolveTrader, Lookup.has, hperson, halgorithm, hclient]
  | nobody hperson halgorithm hclient =>
    have hno : ¬(decide (role = .execution) = true ∧ x.has e "Clnt" = true) := by
      rintro ⟨hrole, hhas⟩
      rw [Lookup.has, hclient (of_decide_eq_true hrole)] at hhas
      cases hhas
    simp only [resolveTrader, hperson, halgorithm, if_neg hno]

/-- Every element names a trader in a role, if only a blank one. -/
theorem exists_namesTrader (e : Element) (role : TraderRole) :
    ∃ trader, NamesTrader x e role trader := by
  cases hperson : x.child? e "Prsn" with
  | some person => exact ⟨_, .person hperson (isScheme_iff.2 rfl)⟩
  | none =>
    cases halgorithm : x.child? e "Algo" with
    | some algorithm => exact ⟨_, .algorithm hperson halgorithm⟩
    | none =>
      cases role with
      | decision => exact ⟨_, .nobody hperson halgorithm nofun⟩
      | execution =>
        cases hclient : x.child? e "Clnt" with
        | some client => exact ⟨_, .client hperson halgorithm hclient⟩
        | none => exact ⟨_, .nobody hperson halgorithm fun _ => hclient⟩

/-- An element names exactly one trader in a role. -/
theorem namesTrader_iff {e : Element} {role : TraderRole} {trader : Trader} :
    NamesTrader x e role trader ↔ resolveTrader x e (role = .execution) = trader := by
  refine ⟨resolveTrader_of_namesTrader, ?_⟩
  rintro rfl
  obtain ⟨trader, h⟩ := exists_namesTrader (x := x) e role
  rwa [resolveTrader_of_namesTrader h]

theorem trader_eq (new : Element) (role : TraderRole) :
    trader x new role =
      (traderNode? x new role).elim {} (resolveTrader x · (role = .execution)) := by
  cases role <;> rfl

/-- There is exactly one trader in a role. -/
theorem traderIs_iff {new : Element} {role : TraderRole} {found : Trader} :
    TraderIs x new role found ↔ trader x new role = found := by
  rw [trader_eq]
  constructor
  · rintro (hnone | ⟨hnode, hnames⟩)
    · rw [hnone]
      rfl
    · rw [hnode]
      exact namesTrader_iff.1 hnames
  · rintro rfl
    cases hnode : traderNode? x new role with
    | none => exact .blank hnode
    | some e => exact .node hnode (namesTrader_iff.2 rfl)

/-! ## The columns of a trader -/

/-- The values in the four columns of a trader. -/
def traderSlice (row : Row) : TraderRole → List String
  | .decision => row.slice 67 70
  | .execution => row.slice 71 74

/-- What the columns of a trader hold in a mode : the kind, the lookup code, the code and the
country. -/
def traderValues (mode : ClientMode) (trader : Trader) : List String :=
  match mode with
  | .standard => [trader.kind, "", trader.identifier, trader.country]
  | .nnip => [trader.kind, trader.identifier, "", trader.country]

theorem traderSlice_eq_map (row : Row) (role : TraderRole) :
    traderSlice row role = (Column.traders role).map row.cell := by
  have hdecision : Column.between 67 70 = Column.traders .decision := rfl
  have hexecution : Column.between 71 74 = Column.traders .execution := rfl
  cases role with
  | decision => rw [traderSlice, Row.slice_eq_map, hdecision]
  | execution => rw [traderSlice, Row.slice_eq_map, hexecution]

/-- The columns of a trader hold what the mode makes of who the trader is. -/
theorem traderSlice_newRow (mode : ClientMode) (new : Element) (role : TraderRole) :
    traderSlice (newRow x mode new) role = traderValues mode (trader x new role) := by
  rw [traderSlice_eq_map]
  cases mode <;> rfl

/-- The mode decides on two columns of each trader, and on nothing else. -/
theorem newCell_exchanged (new : Element) (column : Column) :
    newCell x .nnip new column = newCell x .standard new column.exchanged := by
  cases column with
  | trader role field => cases field <;> rfl
  | detail | party | ownerCountry | transmission | trade | instrument | indicator | eligibility =>
    rfl

example :
    (Column.all.filter fun column => column.exchanged ≠ column).map Column.label =
      ["trade_invst_np", "trade_invst_code", "trade_exec_np", "trade_exec_code"] := by
  decide

/-- The rows of a new transaction in the two modes differ by an exchange of the lookup code and the
code of each trader. In each mode the columns of a trader are the values of the one trader in that
role, of which the mode leaves one column blank. Cancellations do not depend on the mode. -/
theorem newRow_traders (x : Lookup) (new : Element) :
    (∀ column,
      (newRow x .nnip new).cell column =
        (newRow x .standard new).cell column.exchanged) ∧
    (∀ role, ∃! found, TraderIs x new role found) ∧
    (∀ role found, TraderIs x new role found → ∀ mode,
      traderSlice (newRow x mode new) role = traderValues mode found) ∧
    ∀ cancellation, Transaction.row x .nnip ⟨.cancellation, cancellation⟩ =
      Transaction.row x .standard ⟨.cancellation, cancellation⟩ := by
  refine ⟨newCell_exchanged new, fun role => ?_, fun role found h mode => ?_, fun _ => rfl⟩
  · exact ⟨_, traderIs_iff.2 rfl, fun _ h => (traderIs_iff.1 h).symm⟩
  · rw [traderSlice_newRow, traderIs_iff.1 h]

/-- A new transaction that an algorithm decided on, although a client is named too, and that the
client executed. -/
def automatedOrder : Element :=
  .branch "u" "New" [
    .branch "u" "InvstmtDcsnPrsn" [.leaf "u" "Clnt" "", .leaf "u" "Algo" "ALGO1"],
    .branch "u" "ExctgPrsn" [.leaf "u" "Clnt" "NORE"]]

theorem newRow_traders_automatedOrder :
    (TraderIs ⟨"u"⟩ automatedOrder .decision ⟨"ALGO", "ALGO1", ""⟩ ∧
      traderSlice (newRow ⟨"u"⟩ .standard automatedOrder) .decision = ["ALGO", "", "ALGO1", ""] ∧
      traderSlice (newRow ⟨"u"⟩ .nnip automatedOrder) .decision = ["ALGO", "ALGO1", "", ""]) ∧
    TraderIs ⟨"u"⟩ automatedOrder .execution ⟨"CLIENT", "", ""⟩ ∧
      traderSlice (newRow ⟨"u"⟩ .nnip automatedOrder) .execution = ["CLIENT", "", "", ""] := by
  have hdecision : TraderIs ⟨"u"⟩ automatedOrder .decision ⟨"ALGO", "ALGO1", ""⟩ :=
    traderIs_iff.2 rfl
  have hexecution : TraderIs ⟨"u"⟩ automatedOrder .execution ⟨"CLIENT", "", ""⟩ :=
    traderIs_iff.2 rfl
  obtain ⟨-, -, hvalues, -⟩ := newRow_traders ⟨"u"⟩ automatedOrder
  exact ⟨⟨hdecision, hvalues .decision _ hdecision .standard, hvalues .decision _ hdecision .nnip⟩,
    hexecution, hvalues .execution _ hexecution .nnip⟩

end Report

end MifirReport
