import MifirReport.Proofs.Xml.Likeness
import MifirReport.Report.Mapping

/-!
# What a cancellation carries over

A transaction is new as soon as one element in it says so, and what else it says about a
cancellation is not read then (`child?_congr_filter`). Otherwise its first cancellation is mapped,
and of that only the reference and the executing party : all other columns are blank, whatever
stands in the cancellation (`values_cancellation`).

`mapElement_cancellation` states both for the row of a transaction element.
-/

namespace MifirReport.Report

open Xml Table Client

variable {x : Lookup} {a b : Element}

/-- The first child with a tag is among the children that a filter keeps, if it keeps that tag. -/
theorem child?_congr_filter {keep : Element → Bool} {tag : String}
    (hkeep : ∀ e, x.isTagged tag e = true → keep e = true)
    (h : a.children.filter keep = b.children.filter keep) : x.child? a tag = x.child? b tag := by
  have hfilter : ∀ es : List Element,
      (es.filter keep).find? (x.isTagged tag) = es.find? (x.isTagged tag) := by
    intro es
    rw [List.find?_filter]
    congr 1
    funext e
    cases htag : x.isTagged tag e with
    | false => simp
    | true => simp [hkeep e htag]
  rw [Lookup.child?, Lookup.child?, ← hfilter a.children, h, hfilter]

theorem mapElement_of_child? {new : Element} (h : x.child? a "New" = some new) (mode : ClientMode)
    (index : Nat) : mapElement x mode a index = .ok ⟨newCell x mode new⟩ := by
  simp only [mapElement, Transaction.ofElement, Kind.tag, h]
  rfl

theorem mapElement_of_child?_eq_none {cancellation : Element} (hnew : x.child? a "New" = none)
    (h : x.child? a "Cxl" = some cancellation) (mode : ClientMode) (index : Nat) :
    mapElement x mode a index = .ok ⟨cancellationCell x cancellation⟩ := by
  simp only [mapElement, Transaction.ofElement, Kind.tag, hnew, h]
  rfl

/-- The four columns that a cancellation can fill come first. -/
theorem values_cancellation (x : Lookup) (cancellation : Element) :
    Row.values ⟨cancellationCell x cancellation⟩ =
      ["CANC", x.text cancellation "TxId", "", x.text cancellation "ExctgPty"] ++
        List.replicate 78 "" :=
  rfl

example :
    Column.labels.take 4 = ["report_status", "trans_ref_no", "trans_id_code", "entity_id_code"] :=
  rfl

/-- The row of a transaction that is cancelled and not new has the code of a cancellation, the
reference and the executing party, and seventy-nine blank columns. The row of a transaction that is
new stays the same if its cancellations are changed, and nothing is left of them in it. -/
theorem mapElement_cancellation (x : Lookup) (mode : ClientMode) (tx : Element) (index : Nat) :
    (x.has tx "New" = false → x.has tx "Cxl" = true →
      ∃ row, mapElement x mode tx index = .ok row ∧
        row.values = ["CANC", x.pathText tx ["Cxl", "TxId"], "",
          x.pathText tx ["Cxl", "ExctgPty"]] ++ List.replicate 78 "") ∧
    (x.has tx "New" = true → ∀ other : Element,
      other.children.filter (·.name != "Cxl") = tx.children.filter (·.name != "Cxl") →
        mapElement x mode other index = mapElement x mode tx index) := by
  refine ⟨fun hnew hcancelled => ?_, fun hnew other hsame => ?_⟩
  · rw [Lookup.has, Option.isSome_eq_false_iff, Option.isNone_iff_eq_none] at hnew
    obtain ⟨cancellation, hcancellation⟩ := Option.isSome_iff_exists.1 hcancelled
    refine ⟨_, mapElement_of_child?_eq_none hnew hcancellation mode index, ?_⟩
    rw [values_cancellation]
    simp only [Lookup.pathText, Lookup.path?, hcancellation, Option.bind_some, Lookup.text]
    cases x.child? cancellation "TxId" <;> cases x.child? cancellation "ExctgPty" <;> rfl
  · obtain ⟨new, hchild⟩ := Option.isSome_iff_exists.1 hnew
    have hkeep : ∀ e, x.isTagged "New" e = true → (e.name != "Cxl") = true := by
      intro e he
      rw [Lookup.isTagged, Bool.and_eq_true, beq_iff_eq] at he
      rw [he.1]
      rfl
    have hother : x.child? other "New" = some new := by
      rw [child?_congr_filter hkeep hsame, hchild]
    rw [mapElement_of_child? hother, mapElement_of_child? hchild]

/-- A cancellation with a trade in it, after a new transaction of another namespace. -/
def cancelledOrder : Element :=
  .branch "u" "Tx" [.branch "v" "New" [.leaf "v" "TxId" "V"],
    .branch "u" "Cxl" [.leaf "v" "TxId" "W", .leaf "u" "TxId" "A", .leaf "u" "ExctgPty" "LEI",
      .branch "u" "Tx" [.leaf "u" "TradVn" "XLIS"]],
    .branch "u" "Cxl" [.leaf "u" "TxId" "B"]]

/-- A new transaction that is cancelled as well. -/
def replacedOrder : Element :=
  .branch "u" "Tx" [.branch "u" "Cxl" [.leaf "u" "TxId" "A"], .branch "u" "New" []]

theorem mapElement_cancellation_orders :
    (∃ row, mapElement ⟨"u"⟩ .nnip cancelledOrder 1 = .ok row ∧
      row.values = ["CANC", "A", "", "LEI"] ++ List.replicate 78 "") ∧
    mapElement ⟨"u"⟩ .nnip (.branch "u" "Tx" [.branch "u" "New" []]) 1 =
      mapElement ⟨"u"⟩ .nnip replacedOrder 1 :=
  ⟨(mapElement_cancellation ⟨"u"⟩ .nnip cancelledOrder 1).1 rfl rfl,
    (mapElement_cancellation ⟨"u"⟩ .nnip replacedOrder 1).2 rfl _ rfl⟩

end MifirReport.Report
