/-!
# Columns

The output table has eighty-two columns, in an order that the recipient fixes. They fall into
blocks, one for each part of a report: the parties of the trade, the transmission of the order, the
trade itself, the instrument, the traders, the indicators and the eligibility. A `Column` is a field
of such a block, `Column.all` is their order, and `Column.label` the word in the header row.

Most columns are filled from a report. The venue's reference has no known source and stays empty;
the lookup codes of the parties are filled later by the recipient and hold empty entries only
(`Column.status`).
-/

namespace MifirReport.Table

/-- The two sides of a trade. -/
inductive Side
  | buyer
  | seller
  deriving DecidableEq, Repr

/-- The two roles of the parties on one side. -/
inductive PartyRole
  | owner
  | decisionMaker
  deriving DecidableEq, Repr

/-- The two roles of the traders of the reporting firm. -/
inductive TraderRole
  | decision
  | execution
  deriving DecidableEq, Repr

/-! ## Fields of the blocks -/

inductive DetailField
  | status
  | reference
  | venueReference
  | executingParty
  | investmentFirm
  deriving DecidableEq, Repr

inductive PartyField
  | kind
  | lookupCode
  | code
  | forename
  | surname
  | birthDate
  deriving DecidableEq, Repr

inductive TransmissionField
  | indicator
  | buyer
  | seller
  deriving DecidableEq, Repr

/-- The three columns of a field that comes in several kinds. -/
inductive TaggedField
  | kind
  | value
  | currency
  deriving DecidableEq, Repr

inductive TradeField
  | time
  | capacity
  | quantity (field : TaggedField)
  | notionalChange
  | price (field : TaggedField)
  | netAmount
  | venue
  | branchCountry
  | upFrontAmount
  | upFrontCurrency
  | component
  deriving DecidableEq, Repr

/-- What is said of the things underlying an instrument. -/
inductive UnderlyingField
  | code
  | name
  | term
  deriving DecidableEq, Repr

inductive InstrumentField
  | code
  | fullName
  | classification
  | notionalCurrency
  | otherNotionalCurrency
  | priceMultiplier
  | underlying (field : UnderlyingField)
  | optionType
  | strike (field : TaggedField)
  | exerciseStyle
  | maturityDate
  | expiryDate
  | deliveryType
  deriving DecidableEq, Repr

inductive TraderField
  | kind
  | lookupCode
  | code
  | country
  deriving DecidableEq, Repr

inductive IndicatorField
  | waiver
  | shortSelling
  | postTrade
  | riskReducing
  | securitiesFinancing
  deriving DecidableEq, Repr

inductive EligibilityField
  | branchLocation
  | transactionType
  | lifecycleEvent
  deriving DecidableEq, Repr

/-! ## Columns -/

/-- A column of the output table. -/
inductive Column
  | detail (field : DetailField)
  | party (side : Side) (role : PartyRole) (field : PartyField)
  | ownerCountry (side : Side)
  | transmission (field : TransmissionField)
  | trade (field : TradeField)
  | instrument (field : InstrumentField)
  | trader (role : TraderRole) (field : TraderField)
  | indicator (field : IndicatorField)
  | eligibility (field : EligibilityField)
  deriving DecidableEq, Repr

/-- How a column is filled. -/
inductive Status
  | mapped
  | placeholder
  | unmapped
  deriving DecidableEq, Repr

namespace Column

/-- The columns of a field that comes in several kinds, in order. -/
def tagged (column : TaggedField → Column) : List Column :=
  [column .kind, column .value, column .currency]

/-- The columns of the account owners of one side, in order. -/
def owners (side : Side) : List Column :=
  [.party side .owner .kind, .party side .owner .lookupCode, .party side .owner .code,
    .ownerCountry side, .party side .owner .forename, .party side .owner .surname,
    .party side .owner .birthDate]

/-- The columns of the decision makers of one side, in order. -/
def decisionMakers (side : Side) : List Column :=
  [PartyField.kind, .lookupCode, .code, .forename, .surname, .birthDate].map
    (.party side .decisionMaker)

/-- The columns of one trader, in order. -/
def traders (role : TraderRole) : List Column :=
  [TraderField.kind, .lookupCode, .code, .country].map (.trader role)

/-- All columns, in the order of a row. -/
def all : List Column :=
  [DetailField.status, .reference, .venueReference, .executingParty, .investmentFirm].map .detail ++
  owners .buyer ++ decisionMakers .buyer ++ owners .seller ++ decisionMakers .seller ++
  [TransmissionField.indicator, .buyer, .seller].map .transmission ++
  [.trade .time, .trade .capacity] ++ tagged (.trade ∘ .quantity) ++ [.trade .notionalChange] ++
  tagged (.trade ∘ .price) ++
  [TradeField.netAmount, .venue, .branchCountry, .upFrontAmount, .upFrontCurrency,
    .component].map .trade ++
  [InstrumentField.code, .fullName, .classification, .notionalCurrency, .otherNotionalCurrency,
    .priceMultiplier, .underlying .code, .underlying .name, .underlying .term,
    .optionType].map .instrument ++
  tagged (.instrument ∘ .strike) ++
  [InstrumentField.exerciseStyle, .maturityDate, .expiryDate, .deliveryType].map .instrument ++
  traders .decision ++ traders .execution ++
  [IndicatorField.waiver, .shortSelling, .postTrade, .riskReducing,
    .securitiesFinancing].map .indicator ++
  [EligibilityField.branchLocation, .transactionType, .lifecycleEvent].map .eligibility

/-- The position of a column in a row, from zero. -/
def index (column : Column) : Nat :=
  all.idxOf column

/-! ## Labels -/

/-- The short form of a side. -/
def sideLabel : Side → String
  | .buyer => "buy"
  | .seller => "sel"

/-- The short form of a role. -/
def roleLabel : PartyRole → String
  | .owner => "acct"
  | .decisionMaker => "dcsn"

def partyLabel : PartyField → String
  | .kind => "id_type"
  | .lookupCode => "np_code"
  | .code => "id_code"
  | .forename => "forename"
  | .surname => "surname"
  | .birthDate => "birthdt"

def tradeLabel : TradeField → String
  | .time => "datetime"
  | .capacity => "trade_cap"
  | .quantity .kind => "qty_type"
  | .quantity .value => "qty_val"
  | .quantity .currency => "qty_ccy"
  | .notionalChange => "drv_notion"
  | .price .kind => "prc_type"
  | .price .value => "prc_val"
  | .price .currency => "prc_ccy"
  | .netAmount => "net_amt"
  | .venue => "venue"
  | .branchCountry => "brnch_ctry"
  | .upFrontAmount => "up_fr_amt"
  | .upFrontCurrency => "up_fr_ccy"
  | .component => "cmpnt_id"

def instrumentLabel : InstrumentField → String
  | .code => "id_code"
  | .fullName => "full_name"
  | .classification => "class"
  | .notionalCurrency => "notnl_ccy1"
  | .otherNotionalCurrency => "notnl_ccy2"
  | .priceMultiplier => "price_mult"
  | .underlying .code => "under_code"
  | .underlying .name => "under_name"
  | .underlying .term => "under_term"
  | .optionType => "optn_type"
  | .strike .kind => "strk_type"
  | .strike .value => "strk_price"
  | .strike .currency => "strk_ccy"
  | .exerciseStyle => "optn_exrc"
  | .maturityDate => "mat_date"
  | .expiryDate => "exp_date"
  | .deliveryType => "dlvry_type"

/-- The short form of a trader's role. -/
def traderRoleLabel : TraderRole → String
  | .decision => "invst"
  | .execution => "exec"

def traderLabel : TraderField → String
  | .kind => "type"
  | .lookupCode => "np"
  | .code => "code"
  | .country => "ctry"

/-- The word for a column in the header row. -/
def label : Column → String
  | .detail .status => "report_status"
  | .detail .reference => "trans_ref_no"
  | .detail .venueReference => "trans_id_code"
  | .detail .executingParty => "entity_id_code"
  | .detail .investmentFirm => "cover_201465eu"
  | .party side role field => sideLabel side ++ "_" ++ roleLabel role ++ "_" ++ partyLabel field
  | .ownerCountry side => sideLabel side ++ "_acct_country"
  | .transmission .indicator => "trnsm_order_ind"
  | .transmission .buyer => "trnsm_buy_id_code"
  | .transmission .seller => "trnsm_sel_id_code"
  | .trade field => "trnsc_" ++ tradeLabel field
  | .instrument field => "instr_" ++ instrumentLabel field
  | .trader role field => "trade_" ++ traderRoleLabel role ++ "_" ++ traderLabel field
  | .indicator .waiver => "trade_waiver_ind"
  | .indicator .shortSelling => "trade_shrt_ind"
  | .indicator .postTrade => "trade_post_ind"
  | .indicator .riskReducing => "trade_drv_ind"
  | .indicator .securitiesFinancing => "trade_sec_ind"
  | .eligibility .branchLocation => "elig_branch_loc"
  | .eligibility .transactionType => "elig_trnsc_type"
  | .eligibility .lifecycleEvent => "elig_cycle_event"

/-- The words of the header row. -/
def labels : List String :=
  all.map label

/-- How a column is filled. -/
def status : Column → Status
  | .detail .venueReference => .unmapped
  | .party _ _ .lookupCode => .placeholder
  | _ => .mapped

/-- The column with a given label. -/
def ofLabel? (word : String) : Option Column :=
  all.find? (·.label == word)

/-! ## Laws of the catalogue -/

theorem length_all : all.length = 82 := rfl

theorem mem_all (column : Column) : column ∈ all := by
  rcases column with f | ⟨_ | _, _ | _, f⟩ | s | f | (_ | _ | f | _ | f | _ | _ | _ | _ | _ | _) |
    (_ | _ | _ | _ | _ | _ | f | _ | f | _ | _ | _ | _) | ⟨_ | _, f⟩ | f | f <;>
    first | decide | (cases f <;> decide) | (cases s <;> decide)

theorem nodup_all : all.Nodup := by decide

end Column

end MifirReport.Table
