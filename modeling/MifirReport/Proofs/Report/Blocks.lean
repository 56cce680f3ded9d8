import MifirReport.Proofs.Xml.Likeness
import MifirReport.Report.Mapping

/-!
# Which columns a part of a transaction reaches

A new transaction is read in blocks. The blocks with their tags and the numbers of their columns are
`Block.all`, and what stands in the columns of a block depends on the first element with the tag of
the block only (`newCell_congr`). The same holds a level deeper for the two groups of parties on one
side : their columns depend on the parties of that group only, one entry for each of them
(`newCell_of_mem_partyColumns`).

`newRow_blocks` states both for two transactions that may differ in everything else.
-/

namespace MifirReport

namespace Table

/-- The columns from one number to another, counted from one. -/
def Column.between (first last : Nat) : List Column :=
  all.extract (first - 1) last

/-- The values in the columns from one number to another, counted from one. -/
def Row.slice (row : Row) (first last : Nat) : List String :=
  row.values.extract (first - 1) last

/-- A slice of a row is its cells at the columns in between. -/
theorem Row.slice_eq_map (row : Row) (first last : Nat) :
    row.slice first last = (Column.between first last).map row.cell := by
  rw [slice, values, Column.between, List.extract_eq_take_drop, List.extract_eq_take_drop,
    List.map_take, List.map_drop]

end Table

namespace Report

open Xml Table Client

variable {x : Lookup} {mode : ClientMode} {a b : Element}

/-- The row of a new transaction. -/
def newRow (x : Lookup) (mode : ClientMode) (new : Element) : Row :=
  Transaction.row x mode ⟨.new, new⟩

/-! ## Blocks -/

/-- A part of a new transaction : its tag, and its first and last column counted from one. -/
structure Block where
  tag : String
  first : Nat
  last : Nat

/-- The blocks of a new transaction. The first and the third column are read from none of them. -/
def Block.all : List Block :=
  [⟨"TxId", 2, 2⟩, ⟨"ExctgPty", 4, 4⟩, ⟨"InvstmtPtyInd", 5, 5⟩, ⟨"Buyr", 6, 18⟩,
    ⟨"Sellr", 19, 31⟩, ⟨"OrdrTrnsmssn", 32, 34⟩, ⟨"Tx", 35, 49⟩, ⟨"FinInstrm", 50, 66⟩,
    ⟨"InvstmtDcsnPrsn", 67, 70⟩, ⟨"ExctgPrsn", 71, 74⟩, ⟨"AddtlAttrbts", 75, 79⟩,
    ⟨"ElgbltyDtrmntnAttrbts", 80, 82⟩]

/-- The tag of the block that a column is read from. -/
def blockTag? : Column → Option String
  | .detail .reference => some "TxId"
  | .detail .executingParty => some "ExctgPty"
  | .detail .investmentFirm => some "InvstmtPtyInd"
  | .detail _ => none
  | .party side _ _ | .ownerCountry side => some (sideTag side)
  | .transmission _ => some "OrdrTrnsmssn"
  | .trade _ => some "Tx"
  | .instrument _ => some "FinInstrm"
  | .trader role _ => some (traderTag role)
  | .indicator _ => some "AddtlAttrbts"
  | .eligibility _ => some "ElgbltyDtrmntnAttrbts"

/-- Every column between the ends of a block reads the element of the block. -/
theorem blockTag?_of_mem_between : ∀ block ∈ Block.all,
    ∀ column ∈ Column.between block.first block.last, blockTag? column = some block.tag := by
  decide

/-- A cell depends on the first element with the tag of its block only. -/
theorem newCell_congr {column : Column} {tag : String} (hblock : blockTag? column = some tag)
    (h : x.child? a tag = x.child? b tag) : newCell x mode a column = newCell x mode b column := by
  cases column with
  | detail field =>
    cases field with
    | status | venueReference => cases hblock
    | reference | executingParty =>
      cases hblock
      simp only [newCell, detailCell, Lookup.text, h]
    | investmentFirm =>
      cases hblock
      simp only [newCell, detailCell, flagText, h]
  | party side role field =>
    cases hblock
    simp only [newCell, partyCell, parties, h]
  | ownerCountry side =>
    cases hblock
    simp only [newCell, ownerCountryCell, parties, h]
  | transmission field | trade field | instrument field | indicator field | eligibility field =>
    cases hblock
    simp only [newCell, h]
  | trader role field =>
    cases hblock
    simp only [newCell, traderCell, trader, h]

/-! ## Groups of parties -/

/-- The parties in one role on one side : the tag of the side, the tag of the role inside it, and
the first and last column of the group counted from one. -/
structure PartyGroup where
  block : String
  tag : String
  first : Nat
  last : Nat

/-- The four groups of parties. -/
def partyGroup : Side → PartyRole → PartyGroup
  | .buyer, .owner => ⟨"Buyr", "AcctOwnr", 6, 12⟩
  | .buyer, .decisionMaker => ⟨"Buyr", "DcsnMakr", 13, 18⟩
  | .seller, .owner => ⟨"Sellr", "AcctOwnr", 19, 25⟩
  | .seller, .decisionMaker => ⟨"Sellr", "DcsnMakr", 26, 31⟩

/-- The parties of a group, in order. -/
def PartyGroup.members (group : PartyGroup) (x : Lookup) (new : Element) : List Element :=
  (x.child? new group.block).elim [] (x.children · group.tag)

/-- The values in the columns of a group. -/
def PartyGroup.cells (group : PartyGroup) (row : Row) : List String :=
  row.slice group.first group.last

/-- The columns of a group, in order. -/
def partyColumns (side : Side) : PartyRole → List Column
  | .owner => Column.owners side
  | .decisionMaker => Column.decisionMakers side

/-- What one party puts into a column of its group. -/
def partyValue (x : Lookup) (party : Element) : Column → String
  | .party _ role field => (partyIdentity x role party).entry field
  | .ownerCountry _ => x.text party "CtryOfBrnch"
  | _ => ""

theorem members_partyGroup (new : Element) (side : Side) (role : PartyRole) :
    (partyGroup side role).members x new = parties x new side role := by
  cases side <;> cases role <;> rfl

theorem between_partyGroup (side : Side) (role : PartyRole) :
    Column.between (partyGroup side role).first (partyGroup side role).last =
      partyColumns side role := by
  cases side <;> cases role <;> rfl

/-- A cell of a group holds an entry for each party of the group. -/
theorem newCell_of_mem_partyColumns {column : Column} {side : Side} {role : PartyRole}
    (h : column ∈ partyColumns side role) (new : Element) :
    newCell x mode new column =
      Row.joined ((parties x new side role).map (partyValue x · column)) := by
  cases role with
  | owner =>
    simp only [partyColumns, Column.owners, List.mem_cons, List.not_mem_nil, or_false] at h
    obtain rfl | rfl | rfl | rfl | rfl | rfl | rfl := h <;> rfl
  | decisionMaker =>
    simp only [partyColumns, Column.decisionMakers, List.mem_map] at h
    obtain ⟨field, -, rfl⟩ := h
    rfl

theorem cells_partyGroup (new : Element) (side : Side) (role : PartyRole) :
    (partyGroup side role).cells (newRow x mode new) =
      (partyColumns side role).map fun column =>
        Row.joined (((partyGroup side role).members x new).map (partyValue x · column)) := by
  rw [PartyGroup.cells, Row.slice_eq_map, between_partyGroup, members_partyGroup]
  exact List.map_congr_left fun column h => newCell_of_mem_partyColumns h new

/-! ## Two transactions -/

/-- The rows of two new transactions agree on the columns of each block that starts with the same
element in both, and on the columns of each group of parties that is the same in both. -/
theorem newRow_blocks (x : Lookup) (mode : ClientMode) (a b : Element) :
    (∀ block ∈ Block.all, x.child? a block.tag = x.child? b block.tag →
      (newRow x mode a).slice block.first block.last =
        (newRow x mode b).slice block.first block.last) ∧
    ∀ side role, (partyGroup side role).members x a = (partyGroup side role).members x b →
      (partyGroup side role).cells (newRow x mode a) =
        (partyGroup side role).cells (newRow x mode b) := by
  refine ⟨fun block hblock h => ?_, fun side role h => ?_⟩
  · rw [Row.slice_eq_map, Row.slice_eq_map]
    exact List.map_congr_left fun column hcolumn =>
      newCell_congr (blockTag?_of_mem_between block hblock column hcolumn) h
  · rw [cells_partyGroup, cells_partyGroup, h]

/-- A new transaction with an owner on the side of the buyer and a trading venue. -/
def ownedOrder : Element :=
  .branch "u" "New" [.leaf "u" "TxId" "A", .branch "u" "Tx" [.leaf "u" "TradVn" "XLIS"],
    .branch "u" "Buyr" [.branch "u" "AcctOwnr" [.leaf "u" "CtryOfBrnch" "PT"]]]

/-- Another one with the same venue and the same owner, for whom somebody decides. -/
def decidedOrder : Element :=
  .branch "u" "New" [.branch "u" "Buyr" [.branch "u" "DcsnMakr" [.leaf "u" "LEI" "L"],
      .branch "u" "AcctOwnr" [.leaf "u" "CtryOfBrnch" "PT"]],
    .leaf "u" "TxId" "B", .branch "u" "Tx" [.leaf "u" "TradVn" "XLIS"]]

theorem newRow_blocks_orders :
    (Lookup.child? ⟨"u"⟩ ownedOrder "Tx" = Lookup.child? ⟨"u"⟩ decidedOrder "Tx" ∧
      (newRow ⟨"u"⟩ .nnip ownedOrder).slice 35 49 =
        (newRow ⟨"u"⟩ .nnip decidedOrder).slice 35 49) ∧
    ((partyGroup .buyer .owner).members ⟨"u"⟩ ownedOrder =
        (partyGroup .buyer .owner).members ⟨"u"⟩ decidedOrder ∧
      (partyGroup .buyer .owner).cells (newRow ⟨"u"⟩ .nnip ownedOrder) =
        (partyGroup .buyer .owner).cells (newRow ⟨"u"⟩ .nnip decidedOrder)) ∧
    (partyGroup .buyer .decisionMaker).cells (newRow ⟨"u"⟩ .nnip ownedOrder) ≠
      (partyGroup .buyer .decisionMaker).cells (newRow ⟨"u"⟩ .nnip decidedOrder) := by
  have hagree := newRow_blocks ⟨"u"⟩ .nnip ownedOrder decidedOrder
  exact ⟨⟨rfl, hagree.1 ⟨"Tx", 35, 49⟩ (by simp [Block.all]) rfl⟩,
    ⟨rfl, hagree.2 .buyer .owner rfl⟩, by decide⟩

end Report

end MifirReport
