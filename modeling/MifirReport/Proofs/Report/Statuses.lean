import MifirReport.Proofs.Report.Blocks
import MifirReport.Proofs.Report.Cancellations
import MifirReport.Proofs.Table.Entries

/-!
# Columns that no report fills

The catalogue of columns has two kinds that are not filled from a report (`Column.status`). The
column without a source is blank in every row. The lookup codes of the parties hold a blank entry
for each party of their group, so that nothing but the bars between them is written
(`newCell_lookupCode`); each of them belongs to one group (`mem_partyColumns_lookupCode`).
`mapElement_status` states both of the row of any transaction element, whatever its kind.
-/

namespace MifirReport.Report

open Xml Table Client

variable {x : Lookup} {mode : ClientMode} {tx : Element} {column : Column}

/-- The number of parties in a role on one side of a transaction, none unless it is new. -/
def partyCount (x : Lookup) (tx : Element) (side : Side) (role : PartyRole) : Nat :=
  (x.child? tx "New").elim 0 fun new => ((partyGroup side role).members x new).length

/-- A column that is left to the recipient is that of the lookup codes of a group. -/
theorem eq_lookupCode_of_status (h : column.status = .placeholder) :
    ∃ side role, column = .party side role .lookupCode := by
  cases column with
  | party side role field =>
    cases field with
    | lookupCode => exact ⟨side, role, rfl⟩
    | kind | code | forename | surname | birthDate => cases h
  | detail field => cases field <;> cases h
  | ownerCountry | transmission | trade | instrument | trader | indicator | eligibility => cases h

theorem eq_venueReference_of_status (h : column.status = .unmapped) :
    column = .detail .venueReference := by
  cases column with
  | detail field =>
    cases field with
    | venueReference => rfl
    | status | reference | executingParty | investmentFirm => cases h
  | party side role field => cases field <;> cases h
  | ownerCountry | transmission | trade | instrument | trader | indicator | eligibility => cases h

theorem mem_partyColumns_lookupCode {side side' : Side} {role role' : PartyRole} :
    .party side role .lookupCode ∈ partyColumns side' role' ↔ side = side' ∧ role = role' := by
  cases side <;> cases role <;> cases side' <;> cases role' <;> decide

/-- The cells of a row are those of the new transaction or else of the cancellation in it. -/
theorem cell_of_mapElement {row : Row} {index : Nat} (h : mapElement x mode tx index = .ok row) :
    (∃ new, x.child? tx "New" = some new ∧ row.cell = newCell x mode new) ∨
      x.child? tx "New" = none ∧ ∃ cancellation, row.cell = cancellationCell x cancellation := by
  cases hnew : x.child? tx "New" with
  | some new =>
    rw [mapElement_of_child? hnew] at h
    cases h
    exact .inl ⟨new, rfl, rfl⟩
  | none =>
    cases hcancellation : x.child? tx "Cxl" with
    | some cancellation =>
      rw [mapElement_of_child?_eq_none hnew hcancellation] at h
      cases h
      exact .inr ⟨rfl, cancellation, rfl⟩
    | none =>
      simp only [mapElement, Transaction.ofElement, Kind.tag, hnew, hcancellation] at h
      cases h

/-- The lookup codes of a group are blank, one for each party. -/
theorem newCell_lookupCode (new : Element) (side : Side) (role : PartyRole) :
    newCell x mode new (.party side role .lookupCode) =
      String.ofList
        (List.replicate (((partyGroup side role).members x new).length - 1) '|') := by
  have hmem : Column.party side role .lookupCode ∈ partyColumns side role :=
    mem_partyColumns_lookupCode.2 ⟨rfl, rfl⟩
  have hblank : (parties x new side role).map (partyValue x · (.party side role .lookupCode)) =
      List.replicate (parties x new side role).length "" := List.map_const'
  rw [newCell_of_mem_partyColumns hmem, hblank, Row.joined_replicate_blank, members_partyGroup]

/-- Every row leaves the column without a source blank, and puts nothing but the bars between the
parties of its group into each column that is left to the recipient. -/
theorem mapElement_status {row : Row} {index : Nat} (h : mapElement x mode tx index = .ok row) :
    (∀ column : Column, column.status = .unmapped → row.cell column = "") ∧
    ∀ column : Column, column.status = .placeholder →
      (∃! group : Side × PartyRole, column ∈ partyColumns group.1 group.2) ∧
      ∀ side role, column ∈ partyColumns side role →
        row.cell column = String.ofList (List.replicate (partyCount x tx side role - 1) '|') := by
  refine ⟨fun column hstatus => ?_, fun column hstatus => ?_⟩
  · obtain rfl := eq_venueReference_of_status hstatus
    obtain ⟨new, -, hcell⟩ | ⟨-, cancellation, hcell⟩ := cell_of_mapElement h
    · rw [hcell]
      rfl
    · rw [hcell]
      rfl
  · obtain ⟨side, role, rfl⟩ := eq_lookupCode_of_status hstatus
    refine ⟨⟨(side, role), mem_partyColumns_lookupCode.2 ⟨rfl, rfl⟩, fun group hmem => ?_⟩,
      fun side' role' hmem => ?_⟩
    · obtain ⟨hside, hrole⟩ := mem_partyColumns_lookupCode.1 hmem
      exact (Prod.ext hside hrole).symm
    · obtain ⟨rfl, rfl⟩ := mem_partyColumns_lookupCode.1 hmem
      obtain ⟨new, hnew, hcell⟩ | ⟨hnew, cancellation, hcell⟩ := cell_of_mapElement h
      · rw [hcell, newCell_lookupCode, partyCount, hnew, Option.elim_some]
      · rw [hcell, partyCount, hnew]
        rfl

/-- A transaction with three sellers, one of whom somebody decides for, and no buyer. -/
def threeSellers : Element :=
  .branch "u" "Tx" [.branch "u" "New" [.branch "u" "Sellr" [
    .branch "u" "AcctOwnr" [.branch "u" "Id" [.leaf "u" "LEI" "A"]], .branch "u" "AcctOwnr" [],
    .branch "u" "DcsnMakr" [.leaf "u" "LEI" "B"], .branch "u" "AcctOwnr" []]]]

theorem mapElement_status_threeSellers : ∃ row,
    mapElement ⟨"u"⟩ .nnip threeSellers 1 = .ok row ∧
      row.cell (.detail .venueReference) = "" ∧
      row.cell (.party .seller .owner .lookupCode) = "||" ∧
      row.cell (.party .seller .decisionMaker .lookupCode) = "" ∧
      row.cell (.party .buyer .owner .lookupCode) = "" := by
  obtain ⟨row, hrow⟩ : ∃ row, mapElement ⟨"u"⟩ .nnip threeSellers 1 = .ok row := ⟨_, rfl⟩
  obtain ⟨hunmapped, hplaceholder⟩ := mapElement_status hrow
  exact ⟨row, hrow, hunmapped _ rfl, (hplaceholder _ rfl).2 .seller .owner (by decide),
    (hplaceholder _ rfl).2 .seller .decisionMaker (by decide),
    (hplaceholder _ rfl).2 .buyer .owner (by decide)⟩

end MifirReport.Report
